import Cmpt433.Beatbox.AudioOrder

/-!
# The drum patterns (`work/pcmExample/beatbox.c`)

`main` reads the mode at the head of its loop and plays the pattern of that mode; meanwhile the other
threads queue sounds of their own, change the mode, and end the program.

* `pattern` — the sounds of a mode, in the order in which they are queued.
* `sounds_step` — what a step does to the sounds queued and the sounds left.
* `measures_whole` — `main` queues the patterns of the modes that it has read, each as a whole.
-/

set_option autoImplicit false

namespace AudioThreads

open Beatbox Mixer UdpListener Pthread Runs

def soundOf : Op Sound → Option SoundFile
  | .queue p => some p.2
  | .fill _ => none

/-- The sound that an instruction is going to queue, or is queueing. -/
def Instr.sound : Instr → Option SoundFile
  | .AudioMixer_queueSound p => some p.2
  | .at l => soundOf l.op
  | _ => none

def soundsLeft (prog : List Instr) : List SoundFile := prog.filterMap Instr.sound

theorem soundsLeft_append (xs ys : List Instr) :
    soundsLeft (xs ++ ys) = soundsLeft xs ++ soundsLeft ys := List.filterMap_append

theorem soundsLeft_cons (i : Instr) (rest : List Instr) :
    soundsLeft (i :: rest) = i.sound.toList ++ soundsLeft rest := by
  unfold soundsLeft
  rw [List.filterMap_cons]
  cases i.sound <;> rfl

def pattern (currentMode : Int) : List SoundFile := soundsLeft (playBeat currentMode)

example : pattern beatMode.ROCK.value =
    [.hiHatFile, .baseDrumFile, .hiHatFile, .hiHatFile, .snareFile, .hiHatFile] := rfl

/-- The mode that `main` reads in a step. -/
def modeRead (s : State) : Label → List Int
  | .go .main inp =>
    match s.prog .main with
    | .mainLoop :: _ => if s.shared.aborted || s.shared.stopping then [] else [inp.currentMode]
    | _ => []
  | _ => []

section

variable (contents : Sound → WaveFile)

/-- The call of `main` that returns in a step. -/
def finishedByMain (s : State) : Label → List (Op Sound)
  | .go .main inp => finished contents s (.go .main inp)
  | _ => []

end

/-! ## What `main` has still to run -/

def Instr.loops : Instr → Bool
  | .mainLoop | .udpLoop => true
  | _ => false

/-- Its loop comes last, and the loop of `udpListenThread` is another thread's. -/
def LoopLast (prog : List Instr) : Prop :=
  ∀ i rest, i :: rest <:+ prog → i ≠ .udpLoop ∧ (i = .mainLoop → rest = [])

theorem LoopLast.tail {i : Instr} {rest : List Instr} (h : LoopLast (i :: rest)) :
    LoopLast rest :=
  fun j r hr => h j r (hr.trans (List.suffix_cons i rest))

theorem LoopLast.append {is rest : List Instr} (h : LoopLast rest)
    (his : is.any Instr.loops = false) : LoopLast (is ++ rest) := by
  induction is with
  | nil => exact h
  | cons i is ih =>
    rw [List.any_cons, Bool.or_eq_false_iff] at his
    intro j r hr
    rcases List.suffix_cons_iff.mp hr with heq | hr
    · obtain ⟨rfl, -⟩ := List.cons_eq_cons.mp heq
      constructor
      · rintro rfl
        cases his.1
      · rintro rfl
        cases his.1
    · exact ih his.2 j r hr

theorem loopLast_singleton : LoopLast [.mainLoop] := by
  intro j r hr
  rcases List.suffix_cons_iff.mp hr with heq | hr
  · obtain ⟨rfl, rfl⟩ := List.cons_eq_cons.mp heq
    exact ⟨Instr.noConfusion, fun _ => rfl⟩
  · cases List.suffix_nil.mp hr

theorem loopLast_nil : LoopLast [] := by
  intro j r hr
  cases List.suffix_nil.mp hr

theorem playBeat_loops (currentMode : Int) : (playBeat currentMode).any Instr.loops = false := by
  unfold playBeat
  split
  · rfl
  split <;> rfl

/-! ## One step -/

section

variable {size : Nat} {contents : Sound → WaveFile} {inp : Input} {ended : Thread → Bool}
  {sh sh' : Shared} {i : Instr} {is rest : List Instr} {s : State}

/-- Only the loops put a loop back. -/
theorem exec_loops {t : Thread}
    (h : exec size contents t inp ended sh i = some (sh', is)) (hi : i.loops = false) :
    is.any Instr.loops = false := by
  cases i with
  | lock m =>
    obtain ⟨mutex, -, heq⟩ := Option.map_eq_some_iff.mp h
    cases heq
    rfl
  | join t' =>
    simp only [exec] at h
    split at h <;> cases h
    rfl
  | AudioMixer_queueSound p =>
    simp only [exec] at h
    split at h <;> cases h <;> rfl
  | «at» l =>
    cases h
    simp [Instr.loops]
  | mainLoop | udpLoop => cases hi
  | ifDue | playbackLoop | joystickLoop =>
    cases h
    split <;> rfl
  | _ =>
    cases h
    rfl

/-- Outside the two functions and the loops, an instruction is replaced by what has the same
sounds, unless it fails an assertion. -/
theorem exec_sounds {t : Thread} (h : exec size contents t inp ended sh i = some (sh', is))
    (hfine : sh'.aborted = false) (hat : i.isAt = false) (hi : i.loops = false) :
    soundsLeft is = i.sound.toList := by
  cases i with
  | lock m =>
    obtain ⟨mutex, -, heq⟩ := Option.map_eq_some_iff.mp h
    cases heq
    rfl
  | join t' =>
    simp only [exec] at h
    split at h <;> cases h
    rfl
  | AudioMixer_queueSound p =>
    simp only [exec] at h
    split at h
    · cases h
      rfl
    · cases h
      cases hfine
  | «at» l => cases hat
  | mainLoop | udpLoop => cases hi
  | ifDue | playbackLoop | joystickLoop =>
    cases h
    split <;> rfl
  | _ =>
    cases h
    rfl

/-- The sound of a call is left until the call returns. -/
theorem access_sounds {t : Thread} (l : Point Sound) (sh : Shared) :
    soundsLeft (access contents t l sh).2 =
      if (access contents t l sh).2 = [] then [] else (soundOf l.op).toList := by
  have haccess : (access contents t l sh).2 =
      (l.go (fun p => (contents p).data) (sh.sound contents) sh.audio).2.toList.map .at := rfl
  rw [haccess]
  cases hnext : (l.go (fun p => (contents p).data) (sh.sound contents) sh.audio).2 with
  | none => rfl
  | some l' =>
    have hop : l'.op = l.op := Point.go_op hnext
    rw [Option.toList_some, List.map_singleton, if_neg (List.cons_ne_nil _ _), ← hop,
      soundsLeft_cons]
    exact List.append_nil _

/-- `main` reads a mode only at the head of its loop. -/
theorem modeRead_elsewhere (h : ∀ rest, s.prog .main ≠ .mainLoop :: rest) :
    modeRead s (.go .main inp) = [] := by
  unfold modeRead
  cases hprog : s.prog .main with
  | nil => rfl
  | cons i rest =>
    cases i with
    | mainLoop => exact absurd hprog (h rest)
    | _ => rfl

theorem modeRead_aborted (h : s.shared.aborted = true) : modeRead s (.go .main inp) = [] := by
  unfold modeRead
  cases s.prog .main with
  | nil => rfl
  | cons i rest =>
    cases i with
    | mainLoop =>
      rw [h]
      rfl
    | _ => rfl

/-- The other threads. -/
theorem others_step {l : Label} (hl : ∀ inp, l ≠ .go .main inp) :
    (step size contents s l).prog .main = s.prog .main ∧ finishedByMain contents s l = [] ∧
      modeRead s l = [] := by
  rcases step_cases size contents s l with ⟨hstep, -⟩ |
    ⟨t, inp, i, rest, sh, is, rfl, -, -, -, hstep⟩ | ⟨rfl, -, -, hstep⟩
  · refine ⟨by rw [hstep], ?_⟩
    cases l with
    | dies => exact ⟨rfl, rfl⟩
    | go t inp =>
      cases t with
      | main => exact absurd rfl (hl inp)
      | _ => exact ⟨rfl, rfl⟩
  · have hne : Thread.main ≠ t := by
      rintro rfl
      exact hl inp rfl
    rw [hstep]
    refine ⟨Function.update_of_ne hne _ _, ?_⟩
    cases t with
    | main => exact absurd rfl hne
    | _ => exact ⟨rfl, rfl⟩
  · have hne : Thread.main ≠ .joystick := by decide
    rw [hstep]
    exact ⟨Function.update_of_ne hne [] s.prog, rfl, rfl⟩

/-- What `main` has queued, and what it has left, grow by the pattern of the mode it reads. -/
structure SoundsKept (size : Nat) (contents : Sound → WaveFile) (s : State) (l : Label) : Prop where
  loopLast : LoopLast ((step size contents s l).prog .main)
  sounds : (finishedByMain contents s l).filterMap soundOf ++
    soundsLeft ((step size contents s l).prog .main) =
      soundsLeft (s.prog .main) ++ (modeRead s l).flatMap pattern

/-- Where `main` waits, has ended, or the program has. -/
theorem waits_step (hstep : step size contents s (.go .main inp) = s)
    (hnone : finished contents s (.go .main inp) = [])
    (hmode : modeRead s (.go .main inp) = []) (hloop : LoopLast (s.prog .main)) :
    SoundsKept size contents s (.go .main inp) where
  loopLast := by rw [hstep]; exact hloop
  sounds := by
    rw [hstep, hmode]
    show (finished contents s (.go .main inp)).filterMap soundOf ++ _ = _
    rw [hnone]
    simp

theorem step_main (haborted : s.shared.aborted = false) (hprog : s.prog .main = i :: rest)
    (hexec : exec size contents .main inp s.ended s.shared i = some (sh, is)) :
    (step size contents s (.go .main inp)).prog .main = is ++ rest ∧
      (step size contents s (.go .main inp)).shared = sh := by
  have hstep : step size contents s (.go .main inp) =
      { shared := sh, prog := Function.update s.prog .main (is ++ rest) } := by
    simp [step, haborted, hprog, hexec]
  rw [hstep]
  exact ⟨Function.update_self Thread.main (is ++ rest) s.prog, rfl⟩

/-- At the head of its loop `main` takes the pattern of a mode, or leaves the loop. -/
theorem head_step (haborted : s.shared.aborted = false) (hprog : s.prog .main = [.mainLoop]) :
    SoundsKept size contents s (.go .main inp) := by
  have hnone : finished contents s (.go .main inp) = [] := finished_outside hprog rfl
  obtain ⟨hnext, -⟩ := @step_main size contents inp s.shared .mainLoop _ [] s haborted hprog rfl
  rw [List.append_nil] at hnext
  cases hstopping : s.shared.stopping with
  | true =>
    rw [hstopping, if_pos rfl] at hnext
    refine ⟨?_, ?_⟩
    · rw [hnext, ← List.append_nil mainEnd]
      exact loopLast_nil.append rfl
    · rw [hnext]
      simp [finishedByMain, hnone, modeRead, hprog, hstopping]
      rfl
  | false =>
    rw [hstopping, if_neg Bool.false_ne_true] at hnext
    refine ⟨?_, ?_⟩
    · rw [hnext]
      exact loopLast_singleton.append (playBeat_loops inp.currentMode)
    · have hnil : soundsLeft [.mainLoop] = [] := rfl
      rw [hnext, soundsLeft_append]
      simp [finishedByMain, hnone, modeRead, hprog, hstopping, haborted, pattern, hnil]

/-- The other instructions of `main` queue the sound that they stand for, or leave it. -/
theorem instr_step (haborted : s.shared.aborted = false) (hprog : s.prog .main = i :: rest)
    (hexec : exec size contents .main inp s.ended s.shared i = some (sh, is))
    (hfine : sh.aborted = false) (hloop : LoopLast (i :: rest)) (hloops : i.loops = false) :
    SoundsKept size contents s (.go .main inp) := by
  obtain ⟨hnext, -⟩ := step_main haborted hprog hexec
  have hmode : modeRead s (.go .main inp) = [] := by
    apply modeRead_elsewhere
    intro rest' heq
    obtain ⟨rfl, -⟩ := List.cons_eq_cons.mp (hprog.symm.trans heq)
    cases hloops
  have hsounds : (finished contents s (.go .main inp)).filterMap soundOf ++ soundsLeft is =
      i.sound.toList := by
    cases hat : i.isAt with
    | false =>
      rw [finished_outside hprog hat, exec_sounds hexec hfine hat hloops]
      rfl
    | true =>
      cases i with
      | «at» p =>
        have his : is = (access contents .main p s.shared).2 :=
          (congrArg Prod.snd (Option.some.inj hexec)).symm
        have hfinished : finished contents s (.go .main inp) =
            if (access contents .main p s.shared).2 = [] then [p.op] else [] := by
          unfold finished
          simp only [haborted, inside_cons hprog]
          cases (access contents .main p s.shared).2 <;> rfl
        rw [hfinished, his, access_sounds p s.shared]
        show _ = (soundOf p.op).toList
        split
        · rw [List.append_nil, List.filterMap_cons, List.filterMap_nil]
          cases soundOf p.op <;> rfl
        · rfl
      | _ => cases hat
  refine ⟨?_, ?_⟩
  · rw [hnext]
    exact hloop.tail.append (exec_loops hexec hloops)
  · rw [hnext, hmode, hprog, soundsLeft_append, soundsLeft_cons, List.flatMap_nil,
      List.append_nil, ← List.append_assoc, ← hsounds]
    rfl

theorem sounds_step (l : Label) (hfine : (step size contents s l).shared.aborted = false)
    (hloop : LoopLast (s.prog .main)) : SoundsKept size contents s l := by
  by_cases hl : ∀ inp, l ≠ .go .main inp
  · obtain ⟨hprog, hnone, hmode⟩ := @others_step size contents s l hl
    exact ⟨by rw [hprog]; exact hloop, by rw [hprog, hnone, hmode]; simp⟩
  push Not at hl
  obtain ⟨inp, rfl⟩ := hl
  cases haborted : s.shared.aborted with
  | true =>
    apply waits_step _ _ (modeRead_aborted haborted) hloop
    · simp [step, haborted]
    · simp [finished, haborted]
  | false =>
    cases hprog : s.prog .main with
    | nil =>
      have hmode : modeRead s (.go .main inp) = [] := by
        apply modeRead_elsewhere
        intro rest
        rw [hprog]
        exact (List.cons_ne_nil _ _).symm
      apply waits_step _ _ hmode hloop
      · simp [step, hprog]
      · simp [finished, inside, hprog]
    | cons i rest =>
      rw [hprog] at hloop
      cases hexec : exec size contents .main inp s.ended s.shared i with
      | none =>
        have hat : i.isAt = false := by
          cases i with
          | «at» l => cases hexec
          | _ => rfl
        have hmode : modeRead s (.go .main inp) = [] := by
          apply modeRead_elsewhere
          intro rest' heq
          obtain ⟨rfl, -⟩ := List.cons_eq_cons.mp (hprog.symm.trans heq)
          cases hexec
        apply waits_step _ (finished_outside hprog hat) hmode (hprog ▸ hloop)
        simp [step, hprog, hexec]
      | some r =>
        rw [(step_main haborted hprog hexec).2] at hfine
        obtain ⟨hudp, hlast⟩ := hloop i rest List.suffix_rfl
        by_cases hi : i = .mainLoop
        · subst hi
          rw [hlast rfl] at hprog
          exact head_step haborted hprog
        · have hloops : i.loops = false := by
            cases i with
            | mainLoop => exact absurd rfl hi
            | udpLoop => exact absurd rfl hudp
            | _ => rfl
          exact instr_step haborted hprog hexec hfine hloop hloops

/-! ## Runs -/

/-- What `main` has queued and has left, after a run. -/
theorem sounds_run (tr : List Label) :
    LoopLast ((after (step size contents) (start size) tr).prog .main) ∧
      (collect (step size contents) (finishedByMain contents) (start size) tr).filterMap soundOf ++
        soundsLeft ((after (step size contents) (start size) tr).prog .main) =
      (collect (step size contents) modeRead (start size) tr).flatMap pattern := by
  induction tr using List.reverseRecOn with
  | nil => exact ⟨loopLast_singleton.append rfl, rfl⟩
  | append_singleton tr l ih =>
    obtain ⟨hloop, hsounds⟩ := ih
    have hfine : (after (step size contents) (start size) (tr ++ [l])).shared.aborted = false := by
      obtain ⟨v, h⟩ := @agree_run size contents (tr ++ [l])
      exact h.aborted
    rw [after_append] at hfine ⊢
    obtain ⟨hnext, hstep⟩ := @sounds_step size contents _ l hfine hloop
    refine ⟨hnext, ?_⟩
    rw [collect_append, collect_append, List.filterMap_append, List.flatMap_append, ← hsounds,
      List.append_assoc, List.append_assoc]
    congr 1
    simpa using hstep

/-- **`main` plays whole measures.**  Whatever the other threads do meanwhile, the sounds for which
`main`'s calls of `AudioMixer_queueSound` have returned, with those of the pattern that it is in, are
the patterns of the modes that it has read, in order. -/
theorem measures_whole (tr : List Label) :
    (collect (step size contents) (finishedByMain contents) (start size) tr).filterMap soundOf ++
        soundsLeft ((after (step size contents) (start size) tr).prog .main) =
      (collect (step size contents) modeRead (start size) tr).flatMap pattern :=
  (sounds_run tr).2

end

end AudioThreads
