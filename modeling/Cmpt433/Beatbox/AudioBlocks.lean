import Cmpt433.Beatbox.AudioOrder

/-!
# What the beat box frees, and when (`work/pcmExample`)

`AudioMixer_cleanup` joins the playback thread before it frees the playback buffer, and the UDP
thread frees its wave files after that.  `main` frees its own as soon as it finds `stopping` set,
and the playback thread may be in the middle of a fill.

* `freed_once` — every block is freed once at most, and by the end of the program exactly once.
* `stale_main` — a freed block is used only by the playback thread, in the data of one of `main`'s
  sounds.
* `Timely`, `blocks_safe_iff` — exactly when that does not happen.
-/

set_option autoImplicit false

namespace AudioThreads

open Beatbox Mixer UdpListener LocalViews Pthread Runs

section

variable {size : Nat} {contents : Sound → WaveFile} {t : Thread} {inp : Input}
  {sh sh' : Shared} {i : Instr} {is rest : List Instr} {v : Thread → View} {s : State}

/-- **Every block is freed once at most, and once all threads have ended, every block is freed.** -/
theorem freed_once (tr : List Label) :
    let s := after (step size contents) (start size) tr
    s.shared.blocks.freed.Nodup ∧
      ((∀ t, s.prog t = []) → ∀ b, b ∈ s.shared.blocks.freed) := by
  obtain ⟨v, h⟩ := @agree_run size contents tr
  refine ⟨h.heap.once, fun hended b => ?_⟩
  have hlast : ∀ t, v t = View.last t := fun t => h.checked.ended (hended t)
  cases b with
  | pData p =>
    refine (h.heap.pData p).mpr (.inr ?_)
    rw [h.heap.phase p, hlast]
    obtain ⟨o, f⟩ := p
    cases o <;> cases f <;> rfl
  | playbackBuffer => exact h.heap.buffer.mpr (by rw [hlast]; rfl)
  | pStats => exact h.heap.pStats.mpr (by rw [hlast]; rfl)

/-! ## The blocks that are used -/

/-- As long as the playback thread runs, nothing of the shutdown comes after its end. -/
theorem Agree.playing (h : Agree v s) (hplayback : s.prog .playback ≠ []) :
    (v .udp).cleanup.afterJoin = false :=
  Bool.eq_false_iff.mpr fun hafter => hplayback (h.flags.joined hafter)

theorem buffer_live (h : Agree v s) (hplayback : s.prog .playback ≠ []) :
    .playbackBuffer ∉ s.shared.blocks.freed := by
  intro hfreed
  have hplaying := h.playing hplayback
  rw [h.heap.buffer.mp hfreed] at hplaying
  cases hplaying

/-- The UDP thread frees its sounds after the playback thread has ended. -/
theorem udp_live (h : Agree v s) (hplayback : s.prog .playback ≠ []) (f : SoundFile) :
    .pData (.udpListener, f) ∉ s.shared.blocks.freed := by
  intro hfreed
  have hplaying := h.playing hplayback
  have hphase := (h.heap.pData _).mp hfreed
  rw [h.heap.phase] at hphase
  rcases (h.fine .udp).sounds (h.threads .udp) f with hf | hf | hf
  · rw [show (v (threadOf (.udpListener, f))).phase f = .unread from hf] at hphase
    rcases hphase with hphase | hphase <;> cases hphase
  · rw [show (v (threadOf (.udpListener, f))).phase f = .read from hf] at hphase
    rcases hphase with hphase | hphase <;> cases hphase
  · rw [hf] at hplaying
    cases hplaying

/-- The sound whose samples the playback thread is about to read. -/
def State.reads (s : State) : Option Sound :=
  match inside s .playback with
  | some (.add _ i _ _ _ _) => s.shared.audio.table.soundBites[i]?.bind fun b => b.pSound
  | _ => none

/-- The blocks that an instruction uses. -/
def Instr.uses (m : Table Sound) : Instr → List Block
  | .at l => AudioThreads.uses m l
  | .useStats => [.pStats]
  | .writei => [.playbackBuffer]
  | _ => []

theorem mem_foldl_use {bs : List Block} {h : Blocks Thread Block} {x : Thread × Block} :
    x ∈ (bs.foldl (fun h b => h.use t b) h).stale ↔
      x ∈ h.stale ∨ x.1 = t ∧ x.2 ∈ bs ∧ x.2 ∈ h.freed := by
  induction bs generalizing h with
  | nil => simp
  | cons b bs ih =>
    have hone : x ∈ (h.use t b).stale ↔ x ∈ h.stale ∨ x = (t, b) ∧ b ∈ h.freed := by
      unfold Blocks.use
      split
      · rename_i hb
        rw [List.mem_cons, and_iff_left hb, or_comm]
      · rename_i hb
        rw [or_iff_left fun hx => hb hx.2]
    have hfreed : (h.use t b).freed = h.freed := foldl_use_freed t [b] h
    rw [List.foldl_cons, ih, hone, hfreed, List.mem_cons, Prod.ext_iff]
    constructor
    · rintro ((hx | ⟨⟨ht, rfl⟩, hb⟩) | ⟨ht, hx, hb⟩)
      · exact .inl hx
      · exact .inr ⟨ht, .inl rfl, hb⟩
      · exact .inr ⟨ht, .inr hx, hb⟩
    · rintro (hx | ⟨ht, rfl | hx, hb⟩)
      · exact .inl (.inl hx)
      · exact .inl (.inr ⟨⟨ht, rfl⟩, hb⟩)
      · exact .inr ⟨ht, hx, hb⟩

theorem exec_stale {ended : Thread → Bool}
    (h : exec size contents t inp ended sh i = some (sh', is)) :
    sh'.blocks.stale =
      ((i.uses sh.audio.table).foldl (fun h b => h.use t b) sh.blocks).stale := by
  cases i with
  | lock m =>
    obtain ⟨mutex, -, heq⟩ := Option.map_eq_some_iff.mp h
    cases heq
    rfl
  | join t' =>
    simp only [exec] at h
    split at h <;> cases h
    rfl
  | AudioMixer_queueSound p =>
    simp only [exec] at h
    split at h <;> cases h <;> rfl
  | assertInitialized =>
    cases h
    split <;> rfl
  | _ =>
    cases h
    rfl

/-- **A thread uses a freed block only in one place.** -/
theorem uses_freed {b : Block} (h : Agree v s) (hprog : s.prog t = i :: rest)
    (hb : b ∈ i.uses s.shared.audio.table) (hfreed : b ∈ s.shared.blocks.freed) :
    t = .playback ∧ ∃ f, b = .pData (.beatbox, f) ∧ s.reads = some (.beatbox, f) := by
  obtain ⟨w, hcheck, -⟩ := h.checked.head hprog
  obtain ⟨hallows, -⟩ := check_eq_some.mp hcheck
  have hthread := h.threads t
  have hbuffer : t = .playback → b ≠ .playbackBuffer := by
    rintro rfl rfl
    exact buffer_live h (by rw [hprog]; nofun) hfreed
  cases i with
  | useStats =>
    obtain ⟨hplayback, hstats⟩ := of_decide_eq_true hallows
    obtain rfl : t = .playback := hthread.symm.trans hplayback
    obtain rfl := List.mem_singleton.mp hb
    cases hstats.symm.trans (h.heap.pStats.mp hfreed)
  | writei =>
    obtain ⟨hplayback, -⟩ := of_decide_eq_true hallows
    exact absurd (List.mem_singleton.mp hb) (hbuffer (hthread.symm.trans hplayback))
  | «at» l =>
    obtain ⟨-, hop⟩ := of_decide_eq_true hallows
    cases l with
    | clear =>
      obtain rfl : t = .playback := hthread.symm.trans (of_decide_eq_true hop)
      exact absurd (List.mem_singleton.mp hb) (hbuffer rfl)
    | add size i curr_size j k offset =>
      obtain rfl : t = .playback := hthread.symm.trans (of_decide_eq_true hop)
      rcases List.mem_cons.mp hb with hb | hb
      · exact absurd hb (hbuffer rfl)
      · obtain ⟨⟨o, f⟩, hp, rfl⟩ := Option.map_eq_some_iff.mp (Option.mem_toList.mp hb)
        cases o with
        | beatbox =>
          refine ⟨rfl, f, rfl, ?_⟩
          unfold State.reads
          rw [inside_cons hprog]
          exact hp
        | udpListener => exact absurd hfreed (udp_live h (by rw [hprog]; nofun) f)
    | _ => cases hb
  | _ => cases hb

theorem stale_step (h : Agree v s) (l : Label) {x : Thread × Block}
    (hx : x ∈ (step size contents s l).shared.blocks.stale) :
    x ∈ s.shared.blocks.stale ∨ x.2 ∈ s.shared.blocks.freed ∧
      ∃ f, x = (.playback, .pData (.beatbox, f)) ∧ s.reads = some (.beatbox, f) := by
  rcases step_cases size contents s l with ⟨hs, -⟩ |
    ⟨t, inp, i, rest, sh', is, rfl, -, hprog, hexec, hs⟩ | ⟨rfl, -, -, hs⟩ <;> rw [hs] at hx
  · exact .inl hx
  · change x ∈ sh'.blocks.stale at hx
    rw [exec_stale hexec, mem_foldl_use] at hx
    rcases hx with hx | ⟨ht, hb, hfreed⟩
    · exact .inl hx
    · obtain ⟨hplayback, f, hf, hreads⟩ := uses_freed h hprog hb hfreed
      exact .inr ⟨hfreed, f, Prod.ext (ht.trans hplayback) hf, hreads⟩
  · exact .inl hx

/-- **A freed block is used only by the playback thread, in the data of one of `main`'s sounds.** -/
theorem stale_main (tr : List Label) :
    (after (step size contents) (start size) tr).shared.blocks.stale ⊆
      (files .beatbox).map fun p => (.playback, .pData p) := by
  have hstep : ∀ (s : State) (l : Label),
      ((∃ v, Agree v s) ∧ ∀ x ∈ s.shared.blocks.stale, ∃ f, x = (.playback, .pData (.beatbox, f))) →
      (∃ v, Agree v (step size contents s l)) ∧
        ∀ x ∈ (step size contents s l).shared.blocks.stale,
          ∃ f, x = (.playback, .pData (.beatbox, f)) := by
    rintro s l ⟨⟨v, h⟩, hstale⟩
    refine ⟨agree_step h l, fun x hx => ?_⟩
    rcases stale_step h l hx with hx | ⟨-, f, hx, -⟩
    · exact hstale x hx
    · exact ⟨f, hx⟩
  have hrun := (invariant_of_step hstep ⟨⟨_, start_agree size⟩, nofun⟩ tr).2
  intro x hx
  obtain ⟨f, rfl⟩ := hrun x hx
  apply List.mem_map_of_mem
  cases f <;> decide

/-! ## When that does not happen -/

/-- `main` does not free a sound whose samples the playback thread is about to read. -/
def Timely (s : State) : Label → Prop
  | .go .main _ => ∀ p, (s.prog .main).head? = some (.freeData p) → s.reads ≠ some p
  | _ => True

/-- The playback thread is not about to read a freed sample. -/
structure Live (s : State) : Prop where
  views : ∃ v, Agree v s
  headed : Headed s
  none_stale : s.shared.blocks.stale = []
  reads : ∀ p, s.reads = some p → .pData p ∉ s.shared.blocks.freed

theorem reads_eq_some {p : Sound} (h : s.reads = some p) :
    ∃ size i curr_size j k offset, inside s .playback = some (.add size i curr_size j k offset) ∧
      (s.shared.audio.table.soundBites[i]?.bind fun b => b.pSound) = some p := by
  unfold State.reads at h
  split at h
  · rename_i size i curr_size j k offset hin
    exact ⟨size, i, curr_size, j, k, offset, hin, h⟩
  · cases h

/-- In the middle of a function a thread comes to a point from the one before. -/
theorem exec_add {ended : Thread → Bool} {size' j k curr_size offset n : Nat} {rest' : List Instr}
    (hexec : exec size contents t inp ended sh i = some (sh', is))
    (hrest : rest.any Instr.isAt = false)
    (hprog : is ++ rest = .at (.add size' n curr_size j k offset) :: rest') :
    ∃ l, i = .at l ∧
      (l.go (fun p => (contents p).data) (sh.sound contents) sh.audio).2 =
        some (.add size' n curr_size j k offset) := by
  cases i with
  | AudioMixer_queueSound p =>
    simp only [exec] at hexec
    split at hexec <;> cases hexec
    · cases hprog
    · rw [List.nil_append] at hprog
      rw [hprog] at hrest
      cases hrest
  | fillPlaybackBuffer =>
    cases hexec
    cases hprog
  | «at» l =>
    cases hexec
    refine ⟨l, rfl, ?_⟩
    cases hgo : (l.go (fun p => (contents p).data) (sh.sound contents) sh.audio).2 with
    | none =>
      rw [hgo] at hprog
      change rest = _ at hprog
      rw [hprog] at hrest
      cases hrest
    | some l' =>
      rw [hgo] at hprog
      cases hprog
      rfl
  | _ =>
    have hall : (is ++ rest).any Instr.isAt = false := by
      rw [List.any_append, exec_isAt hexec rfl, hrest]
      rfl
    rw [hprog] at hall
    cases hall

/-- The playback thread comes to read a sample only of a sound that has some. -/
theorem reads_playback (h : Agree v s) (hheaded : Headed s) (hprog : s.prog .playback = i :: rest)
    (hexec : exec size contents .playback inp s.ended s.shared i = some (sh', is)) {p : Sound}
    (hp : State.reads { shared := sh', prog := Function.update s.prog .playback (is ++ rest) } =
      some p) : .pData p ∉ sh'.blocks.freed := by
  obtain ⟨size', n, curr_size, j, k, offset, hin, hslot⟩ := reads_eq_some hp
  obtain ⟨rest', hprog'⟩ := inside_eq_some hin
  change Function.update s.prog .playback (is ++ rest) .playback = _ at hprog'
  rw [Function.update_self] at hprog'
  have hrest := hheaded .playback
  rw [hprog, List.tail_cons] at hrest
  obtain ⟨l, rfl, hgo⟩ := exec_add hexec hrest hprog'
  obtain ⟨haudio, hsamples⟩ := Point.go_add hgo
  have heffect := exec_effect hexec
  cases hexec
  change ((l.go _ (s.shared.sound contents) s.shared.audio).1.table.soundBites[n]?.bind _) = _
    at hslot
  rw [haudio] at hslot
  rw [heffect.freed]
  intro hfreed
  have hphase := (h.heap.pData p).mp hfreed
  unfold Table.pointed at hsamples
  rw [hslot, Option.map_some, Option.getD_some, Shared.sound] at hsamples
  rcases hphase with hphase | hphase <;> rw [hphase] at hsamples <;> cases hsamples

/-- The other threads do not come between the test and the read. -/
theorem reads_others (h : Agree v s) (hprog : s.prog t = i :: rest) (hne : t ≠ .playback)
    (hexec : exec size contents t inp s.ended s.shared i = some (sh', is)) {p : Sound}
    (hp : State.reads { shared := sh', prog := Function.update s.prog t (is ++ rest) } = some p) :
    s.reads = some p := by
  obtain ⟨size', n, curr_size, j, k, offset, hin, hslot⟩ := reads_eq_some hp
  rw [inside_update_ne (Ne.symm hne)] at hin
  have hi : ∀ l, i ≠ .at l := by
    rintro l rfl
    exact hne (h.alone (audio_of_inside h (inside_cons hprog)) (audio_of_inside h hin))
  change (sh'.audio.table.soundBites[n]?.bind _) = _ at hslot
  rw [(exec_effect hexec).audio hi] at hslot
  unfold State.reads
  rw [hin]
  exact hslot

/-- The other threads free no data that the playback thread is about to read. -/
theorem frees_others (h : Agree v s) (hprog : s.prog t = i :: rest) {p : Sound}
    (htimely : Timely s (.go t inp)) (hp : s.reads = some p) : i.frees ≠ some (.pData p) := by
  intro hfrees
  obtain ⟨w, hcheck, -⟩ := h.checked.head hprog
  obtain ⟨hallows, -⟩ := check_eq_some.mp hcheck
  obtain rfl : i = .freeData p := by
    cases i with
    | freeData q =>
      cases hfrees
      rfl
    | _ => cases hfrees
  obtain ⟨howner, hphase⟩ := of_decide_eq_true hallows
  rw [h.threads] at howner
  subst howner
  obtain ⟨o, f⟩ := p
  cases o with
  | beatbox =>
    change s.prog .main = _ at hprog
    exact htimely (.beatbox, f) (by rw [hprog]; rfl) hp
  | udpListener =>
    obtain ⟨_, _, _, _, _, _, hin, -⟩ := reads_eq_some hp
    obtain ⟨rest', hprog'⟩ := inside_eq_some hin
    have hplaying := h.playing (by rw [hprog']; nofun)
    rcases (h.fine .udp).sounds (h.threads .udp) f with hf | hf | hf
    · cases hf.symm.trans hphase
    · cases hf.symm.trans hphase
    · rw [hf] at hplaying
      cases hplaying

theorem live_step (h : Live s) (l : Label) (htimely : Timely s l) :
    Live (step size contents s l) := by
  obtain ⟨v, hv⟩ := h.views
  have hstale : (step size contents s l).shared.blocks.stale = [] := by
    refine List.eq_nil_iff_forall_not_mem.mpr fun x hx => ?_
    rcases stale_step hv l hx with hx | ⟨hfreed, f, rfl, hreads⟩
    · rw [h.none_stale] at hx
      cases hx
    · exact h.reads _ hreads hfreed
  refine ⟨agree_step hv l, step_headed h.headed l, hstale, fun p hp => ?_⟩
  rcases step_cases size contents s l with ⟨hs, -⟩ |
    ⟨t, inp, i, rest, sh', is, rfl, -, hprog, hexec, hs⟩ | ⟨rfl, -, hat, hs⟩ <;> rw [hs] at hp ⊢
  · exact h.reads p hp
  · by_cases heq : t = .playback
    · subst heq
      exact reads_playback hv h.headed hprog hexec hp
    · have hreads := reads_others hv hprog heq hexec hp
      change _ ∉ sh'.blocks.freed
      rw [(exec_effect hexec).freed, List.mem_append, Option.mem_toList]
      exact not_or.mpr ⟨frees_others hv hprog htimely hreads, h.reads p hreads⟩
  · unfold State.reads at hp
    rw [dies_inside hat] at hp
    exact h.reads p hp

/-- The playback thread can take its next step as well. -/
def SafeAhead (size : Nat) (contents : Sound → WaveFile) (s : State) : Prop :=
  s.shared.blocks.Safe ∧ ∀ inp, (step size contents s (.go .playback inp)).shared.blocks.Safe

theorem live_safe (h : Live s) : s.shared.blocks.Safe := by
  obtain ⟨v, hv⟩ := h.views
  exact ⟨hv.heap.once, h.none_stale⟩

/-- A sound freed too early is used in the next step. -/
theorem timely_of_safeAhead (h : Live s) (l : Label)
    (hsafe : SafeAhead size contents (step size contents s l)) : Timely s l := by
  obtain ⟨v, hv⟩ := h.views
  cases l with
  | dies => trivial
  | go t inp =>
    cases t with
    | playback | udp | joystick => trivial
    | main =>
      intro p hhead hreads
      obtain ⟨rest, hprog⟩ : ∃ rest, s.prog .main = .freeData p :: rest := by
        cases hmain : s.prog .main with
        | nil =>
          rw [hmain] at hhead
          cases hhead
        | cons i rest =>
          rw [hmain] at hhead
          cases hhead
          exact ⟨rest, rfl⟩
      obtain ⟨size', n, curr_size, j, k, offset, hin, hslot⟩ := reads_eq_some hreads
      obtain ⟨rest', hplayback⟩ := inside_eq_some hin
      -- `main` frees the data, and the playback thread goes on
      obtain ⟨s', hs', hshared, hprog'⟩ : ∃ s', s' = step size contents s (.go .main inp) ∧
          s'.shared = { s.shared.setPhase p .freed with blocks := s.shared.blocks.free (.pData p) } ∧
          s'.prog .playback = .at (.add size' n curr_size j k offset) :: rest' := by
        refine ⟨_, rfl, ?_, ?_⟩
        · simp [step, hv.aborted, hprog, exec]
        · simp [step, hv.aborted, hprog, exec, hplayback]
      rw [← hs'] at hsafe
      have hstale := (hsafe.2 inp).none_stale
      have hstep : (step size contents s' (.go .playback inp)).shared =
          (access contents .playback (.add size' n curr_size j k offset) s'.shared).1 := by
        have haborted : s'.shared.aborted = false := by
          rw [hshared]
          exact hv.aborted
        simp [step, haborted, hprog', exec]
      have hused : (Thread.playback, Block.pData p) ∈
          (step size contents s' (.go .playback inp)).shared.blocks.stale := by
        rw [hstep]
        refine mem_foldl_use.mpr (.inr ⟨rfl, List.mem_cons_of_mem _ ?_, ?_⟩)
        · rw [Option.mem_toList, Option.map_eq_some_iff, hshared]
          exact ⟨p, hslot, rfl⟩
        · rw [hshared]
          exact List.mem_cons_self
      rw [hstale] at hused
      cases hused

/-- **Every block is freed once and never used after that exactly if `main` frees none of its sounds
while the playback thread is about to read a sample of it.** -/
theorem blocks_safe_iff (tr : List Label) :
    (∀ pre, pre <+: tr → SafeAhead size contents (after (step size contents) (start size) pre)) ↔
      Throughout (step size contents) Timely (start size) tr := by
  have hstart : Live (start size) := by
    refine ⟨⟨_, start_agree size⟩, start_headed, rfl, fun p hp => ?_⟩
    obtain ⟨_, _, _, _, _, _, hin, -⟩ := reads_eq_some hp
    cases hin
  have hahead : ∀ s, Live s → SafeAhead size contents s :=
    fun s h => ⟨live_safe h, fun inp => live_safe (live_step h (.go .playback inp) trivial)⟩
  exact safe_iff hahead (fun s l h htimely => live_step h l htimely)
    (fun s l h hsafe => timely_of_safeAhead h l hsafe) hstart

end

end AudioThreads
