import Cmpt433.Beatbox.AudioAgree
import Cmpt433.Mixer.Bookkeeping

/-!
# The mixer's functions under the mutex (`work/pcmExample`)

The threads are in `AudioMixer_queueSound` and `fillPlaybackBuffer` one access at a time.  As long as
no wave file is emptied, the table and the playback buffer are those of the calls that have
returned, made one after the other.

* `Ordered` — the calls that have returned, and the one in progress.
* `ordered_step`, `ordered_run` — every step of every thread keeps it.
* `calls_in_order` — what the threads do to the mixer is a run of the mixer.
-/

set_option autoImplicit false

namespace AudioThreads

open Beatbox Mixer UdpListener LocalViews Pthread Runs CriticalSections

/-! ## Where a thread is in a function -/

def Instr.isAt : Instr → Bool
  | .at _ => true
  | _ => false

/-- It comes into one of the functions, or is in it. -/
def Instr.enters : Instr → Bool
  | .AudioMixer_queueSound _ | .fillPlaybackBuffer | .at _ => true
  | _ => false

/-- A thread is in one function at a time. -/
def Headed (s : State) : Prop := ∀ t, (s.prog t).tail.any Instr.isAt = false

theorem inside_cons {s : State} {t : Thread} {l : Point Sound} {rest : List Instr}
    (h : s.prog t = .at l :: rest) : inside s t = some l := by
  unfold inside
  rw [h]

theorem inside_eq_some {s : State} {t : Thread} {l : Point Sound} (h : inside s t = some l) :
    ∃ rest, s.prog t = .at l :: rest := by
  unfold inside at h
  split at h
  · rename_i l' rest hprog
    cases h
    exact ⟨rest, hprog⟩
  · cases h

theorem inside_eq_none {s : State} {t : Thread} (h : (s.prog t).any Instr.isAt = false) :
    inside s t = none := by
  cases hinside : inside s t with
  | none => rfl
  | some l =>
    obtain ⟨rest, hprog⟩ := inside_eq_some hinside
    rw [hprog] at h
    cases h

section

variable {size : Nat} {contents : Sound → WaveFile} {t : Thread} {inp : Input}
  {ended : Thread → Bool} {sh sh' : Shared} {i : Instr} {is rest : List Instr} {v : Thread → View}
  {s : State}

theorem playBeat_isAt (mode : Int) : (playBeat mode).any Instr.isAt = false := by
  unfold playBeat
  split
  · rfl
  · split <;> rfl

theorem handleRequest_isAt (r : Option UdpListener.Command) :
    (handleRequest r).any Instr.isAt = false := by
  match r with
  | none | some (.control _) | some .base | some .hihat | some .snare | some .terminate => rfl

/-- Only the calls of the two functions, and what is left of them, are in them. -/
theorem exec_isAt (h : exec size contents t inp ended sh i = some (sh', is))
    (hi : i.enters = false) : is.any Instr.isAt = false := by
  cases i with
  | AudioMixer_queueSound p | fillPlaybackBuffer | «at» l => cases hi
  | lock m =>
    obtain ⟨mutex, -, heq⟩ := Option.map_eq_some_iff.mp h
    cases heq
    rfl
  | join t' =>
    simp only [exec] at h
    split at h <;> cases h
    rfl
  | mainLoop =>
    cases h
    split
    · rfl
    · rw [List.any_append, playBeat_isAt]
      rfl
  | udpLoop =>
    cases h
    split
    · rw [List.any_append, handleRequest_isAt]
      rfl
    · rfl
  | ifDue | playbackLoop | joystickLoop =>
    cases h
    split <;> rfl
  | _ =>
    cases h
    rfl

theorem exec_new (h : exec size contents t inp ended sh i = some (sh', is)) :
    is.any Instr.isAt = false ∨ ∃ l, is = [.at l] := by
  cases i with
  | AudioMixer_queueSound p =>
    simp only [exec] at h
    split at h <;> cases h
    · exact .inr ⟨_, rfl⟩
    · exact .inl rfl
  | fillPlaybackBuffer =>
    cases h
    exact .inr ⟨_, rfl⟩
  | «at» l =>
    cases h
    cases hgo : (l.go (fun p => (contents p).data) (sh.sound contents) sh.audio).2 with
    | none => exact .inl rfl
    | some l' => exact .inr ⟨l', rfl⟩
  | _ => exact .inl (exec_isAt h rfl)

theorem headed_step (h : Headed s) (hprog : s.prog t = i :: rest)
    (hnew : is.any Instr.isAt = false ∨ ∃ l, is = [.at l]) :
    Headed { shared := sh', prog := Function.update s.prog t (is ++ rest) } := by
  intro t'
  change (Function.update s.prog t (is ++ rest) t').tail.any _ = false
  by_cases heq : t' = t
  · subst heq
    have hrest := h t'
    rw [hprog, List.tail_cons] at hrest
    rw [Function.update_self]
    rcases hnew with hnew | ⟨l, rfl⟩
    · have hall : (is ++ rest).any Instr.isAt = false := by
        rw [List.any_append, hnew, hrest]
        rfl
      rw [List.any_eq_false] at hall ⊢
      exact fun i hi => hall i (List.mem_of_mem_tail hi)
    · exact hrest
  · rw [Function.update_of_ne heq]
    exact h t'

theorem step_headed (h : Headed s) (l : Label) : Headed (step size contents s l) := by
  rcases step_cases size contents s l with ⟨hs, -⟩ |
    ⟨t, inp, i, rest, sh', is, rfl, -, hprog, hexec, hs⟩ | ⟨rfl, -, -, hs⟩ <;> rw [hs]
  · exact h
  · exact headed_step h hprog (exec_new hexec)
  · intro t
    change (Function.update s.prog .joystick [] t).tail.any _ = false
    by_cases heq : t = .joystick
    · subst heq
      rw [Function.update_self]
      rfl
    · rw [Function.update_of_ne heq]
      exact h t

theorem start_headed : Headed (start size) := by
  intro t
  cases t <;> rfl

/-! ## A step of a function -/

/-- No wave file has been emptied. -/
def Intact (s : State) : Prop := ∀ p, s.shared.phase p = .unread ∨ s.shared.phase p = .read

/-- The sounds that the table points to are as their files say. -/
theorem sound_of_intact (h : Intact s) (hheap : Heap v s.shared) {b : playbackSound_t Sound}
    (hb : b ∈ s.shared.audio.table.soundBites) {p : Sound} (hp : b.pSound = some p) :
    s.shared.sound contents p = (contents p).data :=
  sound_of_read ((h p).resolve_left (hheap.pointed b hb p hp))

theorem intact_of_step (hallows : (v t).allows i) (heffect : Effect i s.shared sh')
    (hheap : Heap v s.shared) (hthread : (v t).thread = t) {prog : Thread → List Instr}
    (h : Intact { shared := sh', prog }) : Intact s := by
  cases hi : i.sets with
  | none =>
    intro p
    have hp := h p
    simp only [heffect.phase, hi, Option.elim_none] at hp
    exact hp
  | some set =>
    obtain ⟨q, φ⟩ := set
    obtain ⟨howner, -, hphase⟩ := next_sets hallows hi
    obtain rfl : t = threadOf q := hthread.symm.trans howner.symm
    rw [← hheap.phase q] at hphase
    have hp : ∀ p, Function.update s.shared.phase q φ p = .unread ∨
        Function.update s.shared.phase q φ p = .read := by
      intro p
      have hp := h p
      simp only [heffect.phase, hi] at hp
      exact hp
    have hq := hp q
    rw [Function.update_self] at hq
    have hunread : s.shared.phase q = .unread := by
      rcases hphase with ⟨hunread, -⟩ | ⟨-, rfl⟩ | ⟨-, rfl, -⟩ | ⟨-, rfl⟩
      · exact hunread
      · exact absurd hq (by decide)
      · exact absurd hq (by decide)
      · exact absurd hq (by decide)
    intro p
    by_cases heq : p = q
    · subst heq
      exact .inl hunread
    · have hp := hp p
      rw [Function.update_of_ne heq] at hp
      exact hp

theorem inside_update_ne {t' : Thread} {prog : List Instr} (hne : t' ≠ t) :
    inside { shared := sh', prog := Function.update s.prog t prog } t' = inside s t' := by
  have hsame : Function.update s.prog t prog t' = s.prog t' := Function.update_of_ne hne ..
  simp only [inside, hsame]

/-- Whoever is in a function is in a section. -/
theorem audio_of_inside (h : Agree v s) {l : Point Sound} (hin : inside s t = some l) :
    (v t).audio = true := by
  obtain ⟨rest, hprog⟩ := inside_eq_some hin
  obtain ⟨w, hcheck, -⟩ := h.checked.head hprog
  exact (of_decide_eq_true (check_eq_some.mp hcheck).1).1

/-! ## The calls -/

/-- The calls `ops`, each in one piece. -/
def calls (contents : Sound → WaveFile) (a : Audio Sound) (ops : List (Op Sound)) : Audio Sound :=
  ops.foldl (fun a op => op.whole (fun p => (contents p).data) a) a

/-- As long as no wave file is emptied, `d` is what the calls that have returned have made of the
table and the buffer. -/
structure Ordered (contents : Sound → WaveFile) (s : State) (d : Audio Sound) : Prop where
  views : ∃ v, Agree v s
  headed : Headed s
  atomic : Intact s → Atomic (code fun p => (contents p).data) (inside s) s.shared.audio d

theorem start_ordered : Ordered contents (start size) (start size).shared.audio where
  views := ⟨_, start_agree size⟩
  headed := start_headed
  atomic _ := by
    have hnone : ∀ t, inside (start size) t = none := fun t => by cases t <;> rfl
    refine ⟨fun t t' l l' h => ?_, fun _ => rfl, fun t l h => ?_⟩
    · rw [hnone] at h
      cases h
    · rw [hnone] at h
      cases h

/-- A thread that steps outside the two functions. -/
theorem atomic_outside {d : Audio Sound}
    (h : Atomic (code fun p => (contents p).data) (inside s) s.shared.audio d) (hheaded : Headed s)
    (hprog : s.prog t = i :: rest) (hi : i.isAt = false) (his : is.any Instr.isAt = false)
    (haudio : sh'.audio = s.shared.audio) :
    Atomic (code fun p => (contents p).data)
      (inside { shared := sh', prog := Function.update s.prog t (is ++ rest) }) sh'.audio d := by
  rw [haudio]
  refine h.congr fun t' => ?_
  by_cases heq : t' = t
  · subst heq
    have hrest := hheaded t'
    rw [hprog, List.tail_cons] at hrest
    rw [inside_eq_none, inside_eq_none]
    · rw [hprog, List.any_cons, hi, hrest]
      rfl
    · change (Function.update s.prog t' (is ++ rest) t').any _ = false
      rw [Function.update_self, List.any_append, his, hrest]
      rfl
  · exact inside_update_ne heq

/-- A thread that calls one of the two functions. -/
theorem atomic_call {d : Audio Sound} {op : Op Sound} (hagree : Agree v s)
    (h : Atomic (code fun p => (contents p).data) (inside s) s.shared.audio d)
    (hprog : s.prog t = i :: rest) (hi : i.isAt = false) (haudio : (v t).audio = true)
    (hends : Ends (Point.go (fun p => (contents p).data) fun p => (contents p).data) op.enter d
      (op.whole (fun p => (contents p).data) d)) (hop : op.enter.op = op) :
    Atomic (code fun p => (contents p).data)
      (inside { shared := s.shared, prog := Function.update s.prog t (.at op.enter :: rest) })
      s.shared.audio d := by
  have hnone : ∀ t', inside s t' = none := by
    intro t'
    cases hin : inside s t' with
    | none => rfl
    | some l =>
      obtain rfl := hagree.alone (audio_of_inside hagree hin) haudio
      unfold inside at hin
      rw [hprog] at hin
      cases i with
      | «at» => cases hi
      | _ => cases hin
  have hin : inside { shared := s.shared, prog := Function.update s.prog t (.at op.enter :: rest) }
      t = some op.enter := inside_cons (Function.update_self ..)
  refine h.enter hnone (fun t' hne => inside_update_ne hne) hin ?_
  change Ends _ _ _ (Op.whole _ op.enter.op d)
  rw [hop]
  exact hends

/-- A step in one of the two functions. -/
theorem atomic_access {d : Audio Sound} {l : Point Sound}
    (h : Atomic (code fun p => (contents p).data) (inside s) s.shared.audio d)
    (hheaded : Headed s) (hprog : s.prog t = .at l :: rest)
    (hsounds : ∀ b ∈ s.shared.audio.table.soundBites, ∀ p, b.pSound = some p →
      s.shared.sound contents p = (contents p).data)
    (haborted : s.shared.aborted = false) :
    let r := access contents t l s.shared
    Atomic (code fun p => (contents p).data)
      (inside { shared := r.1, prog := Function.update s.prog t (r.2 ++ rest) }) r.1.audio
      (calls contents d (finished contents s (.go t inp))) := by
  intro r
  have hin := inside_cons hprog
  have hothers : ∀ t', t' ≠ t →
      inside { shared := r.1, prog := Function.update s.prog t (r.2 ++ rest) } t' = inside s t' :=
    fun t' hne => inside_update_ne hne
  have hgo : l.go (fun p => (contents p).data) (s.shared.sound contents) s.shared.audio =
      l.go (fun p => (contents p).data) (fun p => (contents p).data) s.shared.audio :=
    go_congr hsounds
  have hfinished : finished contents s (.go t inp) = if r.2.isEmpty then [l.op] else [] := by
    unfold finished
    rw [haborted, if_neg Bool.false_ne_true]
    simp only [hin]
    cases r.2 <;> rfl
  obtain ⟨⟨a', next⟩, hres⟩ : ∃ res, l.go (fun p => (contents p).data)
      (fun p => (contents p).data) s.shared.audio = res := ⟨_, rfl⟩
  have haudio : r.1.audio = a' := by
    change (l.go _ (s.shared.sound contents) s.shared.audio).1 = a'
    rw [hgo, hres]
  have hnext : r.2 = next.toList.map .at := by
    change (l.go _ (s.shared.sound contents) s.shared.audio).2.toList.map Instr.at = _
    rw [hgo, hres]
  rw [hnext] at hothers hfinished ⊢
  rw [haudio, hfinished]
  cases next with
  | none =>
    refine h.finish hothers hin hres (inside_eq_none ?_)
    have hrest := hheaded t
    rw [hprog, List.tail_cons] at hrest
    change (Function.update s.prog t rest t).any _ = false
    rw [Function.update_self]
    exact hrest
  | some l' =>
    have hprog' : Function.update s.prog t (.at l' :: rest) t = .at l' :: rest :=
      Function.update_self ..
    exact h.go hothers hin hres (inside_cons hprog')

theorem finished_outside (hprog : s.prog t = i :: rest) (hi : i.isAt = false) :
    finished contents s (.go t inp) = [] := by
  have hnone : inside s t = none := by
    unfold inside
    rw [hprog]
    cases i with
    | «at» => cases hi
    | _ => rfl
  unfold finished
  split
  · rfl
  · simp only [hnone]

/-- The joystick thread is in neither function. -/
theorem dies_inside (hat : s.atCancellationPoint = true) (t : Thread) :
    inside { s with prog := Function.update s.prog .joystick [] } t = inside s t := by
  by_cases heq : t = .joystick
  · subst heq
    have hprog : Function.update s.prog .joystick [] .joystick = [] := Function.update_self ..
    unfold State.atCancellationPoint at hat
    simp only [inside, hprog]
    cases hhead : s.prog .joystick with
    | nil => rfl
    | cons i rest =>
      rw [hhead] at hat
      cases i with
      | «at» => cases hat
      | _ => rfl
  · exact inside_update_ne heq

theorem ordered_go {d : Audio Sound} (h : Ordered contents s d) (hprog : s.prog t = i :: rest)
    (hexec : exec size contents t inp s.ended s.shared i = some (sh', is)) :
    Ordered contents { shared := sh', prog := Function.update s.prog t (is ++ rest) }
      (calls contents d (finished contents s (.go t inp))) := by
  obtain ⟨v, hv⟩ := h.views
  obtain ⟨w, hcheck, -⟩ := hv.checked.head hprog
  obtain ⟨hallows, -⟩ := check_eq_some.mp hcheck
  refine ⟨⟨_, agree_go hv hprog hexec⟩, headed_step h.headed hprog (exec_new hexec),
    fun hafter => ?_⟩
  have hintact := intact_of_step hallows (exec_effect hexec) hv.heap (hv.threads t) hafter
  have hatomic := h.atomic hintact
  cases i with
  | AudioMixer_queueSound p =>
    have haborted := aborted_step hv hallows hprog hexec
    rw [finished_outside hprog rfl]
    simp only [exec] at hexec
    split at hexec <;> cases hexec
    · exact atomic_call hv hatomic hprog rfl (of_decide_eq_true hallows).1
        (queue_ends ⟨(contents p).pos, rfl⟩ d) rfl
    · cases haborted
  | fillPlaybackBuffer =>
    cases hexec
    rw [finished_outside hprog rfl]
    exact atomic_call hv hatomic hprog rfl (of_decide_eq_true hallows).2
      (fill_ends size d) rfl
  | «at» l =>
    cases hexec
    exact atomic_access hatomic h.headed hprog
      (fun b hb p hp => sound_of_intact hintact hv.heap hb hp) hv.aborted
  | _ =>
    rw [finished_outside hprog rfl]
    exact atomic_outside hatomic h.headed hprog rfl (exec_isAt hexec rfl)
      ((exec_effect hexec).audio fun l hl => by cases hl)

theorem ordered_step {d : Audio Sound} (h : Ordered contents s d) (l : Label) :
    Ordered contents (step size contents s l) (calls contents d (finished contents s l)) := by
  obtain ⟨v, hv⟩ := h.views
  rcases step_cases size contents s l with ⟨hs, hfin⟩ |
    ⟨t, inp, i, rest, sh', is, rfl, -, hprog, hexec, hs⟩ | ⟨rfl, -, hat, hs⟩ <;> rw [hs]
  · rw [hfin]
    exact h
  · exact ordered_go h hprog hexec
  · have hfin : finished contents s .dies = [] := by
      unfold finished
      rw [hv.aborted]
      rfl
    rw [hfin]
    refine ⟨⟨v, dies_agree hv⟩, ?_, fun hintact => (h.atomic hintact).congr (dies_inside hat)⟩
    rw [← hs]
    exact step_headed h.headed .dies

theorem ordered_run (tr : List Label) {d : Audio Sound} (h : Ordered contents s d) :
    Ordered contents (after (step size contents) s tr)
      (calls contents d (collect (step size contents) (finished contents) s tr)) := by
  induction tr generalizing s d with
  | nil => exact h
  | cons l tr ih =>
    have hrest := ih (@ordered_step size contents _ _ h l)
    unfold calls at hrest ⊢
    rw [collect_cons, List.foldl_append]
    exact hrest

/-- Each of the calls is one of the mixer's. -/
theorem calls_step (a : Audio Sound) (op : Op Sound) :
    Mixer.step (fun p => (contents p).data) (some a.table) op =
      some (op.whole (fun p => (contents p).data) a).table := by
  cases op with
  | queue p =>
    obtain ⟨r, m, hq, -⟩ := @queueSound_once _ (fun p => (contents p).data) a.table p
      ⟨(contents p).pos, rfl⟩
    simp [Mixer.step, Op.apply, Op.whole, hq]
  | fill size => rfl

theorem calls_table (a : Audio Sound) (ops : List (Op Sound)) :
    after (Mixer.step fun p => (contents p).data) (some a.table) ops =
      some (calls contents a ops).table := by
  induction ops generalizing a with
  | nil => rfl
  | cons op ops ih =>
    rw [after_cons, calls_step, ih]
    rfl

theorem good_of_contents (op : Op Sound) : op.Good fun p => (contents p).data := by
  cases op with
  | queue p => exact ⟨(contents p).pos, rfl⟩
  | fill size => trivial

theorem calls_booked {a : Audio Sound} (ops : List (Op Sound))
    (h : Booked (fun p => (contents p).data) a.table) :
    Booked (fun p => (contents p).data) (calls contents a ops).table := by
  induction ops generalizing a with
  | nil => exact h
  | cons op ops ih =>
    refine @ih (op.whole (fun p => (contents p).data) a) ?_
    obtain ⟨m, hm, hbooked⟩ := op_booked (good_of_contents op) h
    rw [calls_step] at hm
    exact Option.some.inj hm ▸ hbooked

/-- **What the threads do to the mixer is a run of the mixer.**  As long as no wave file is emptied,
whenever no thread is in one of the two functions the table and the buffer are what the calls that
have returned make of them, one after the other. -/
theorem calls_in_order (tr : List Label) :
    let s := after (step size contents) (start size) tr
    let ops := collect (step size contents) (finished contents) (start size) tr
    (∀ p, s.shared.phase p = .unread ∨ s.shared.phase p = .read) → (∀ t, inside s t = none) →
      s.shared.audio = calls contents (start size).shared.audio ops ∧
        after (Mixer.step fun p => (contents p).data) (some (Mixer.AudioMixer_init statics)) ops =
          some s.shared.audio.table ∧
        TableKept (fun p => (contents p).data) s.shared.audio.table := by
  intro s ops hintact hnone
  have hordered := @ordered_run size contents _ tr _ (@start_ordered size contents)
  have haudio : s.shared.audio = calls contents (start size).shared.audio ops :=
    (hordered.atomic hintact).idle hnone
  refine ⟨haudio, ?_, ?_⟩
  · rw [haudio]
    exact @calls_table contents (start size).shared.audio ops
  · rw [haudio]
    exact (calls_booked ops init_booked).kept

end

/-- Every file has one sample. -/
def oneSample : Sound → WaveFile := fun _ => ⟨1, fun _ => 5, Nat.one_pos⟩

/-- `main` reads its files and queues the first two sounds of `rockBeat`, and the playback thread
fills a buffer of one sample. -/
def beatAndFill : List Label :=
  List.replicate 14 (.go .main ⟨2, false, none⟩) ++
    List.replicate 15 (.go .playback ⟨2, false, none⟩)

theorem calls_in_order_beat :
    let s := after (step 1 oneSample) (start 1) beatAndFill
    let ops := collect (step 1 oneSample) (finished oneSample) (start 1) beatAndFill
    s.shared.audio = calls oneSample (start 1).shared.audio ops ∧
      after (Mixer.step fun p => (oneSample p).data) (some (Mixer.AudioMixer_init statics)) ops =
        some s.shared.audio.table ∧
      TableKept (fun p => (oneSample p).data) s.shared.audio.table :=
  calls_in_order beatAndFill
    (fun p => by
      obtain ⟨o, f⟩ := p
      cases o <;> cases f <;> decide)
    (fun t => by cases t <;> decide)

example : collect (step 1 oneSample) (finished oneSample) (start 1) beatAndFill =
    [.queue (.beatbox, .hiHatFile), .queue (.beatbox, .baseDrumFile), .fill 1] := by rfl

end AudioThreads
