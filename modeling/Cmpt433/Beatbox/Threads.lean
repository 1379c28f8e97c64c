import Cmpt433.Lib.ReadModifyWrite
import Cmpt433.Beatbox.Controls

/-!
# The joystick thread and the UDP handler (`work/pcmExample`)

Both threads use the controls without a lock.  A step is one read or write of a control by one of
them, or the start of a request in a thread that is not busy with one.  The range check of
`AudioMixer_setVolume` and `AudioMixer_setTempo` looks at no control, so it is in one step with the
write.

* `access` — what a thread does at a program point, and where it is then.
* `controls_valid` — both levels always stay in their range; the mode does if no increment reads a 3.
* `no_lost_update` — a level ends at what the same requests give one at a time, if each change that
  is written back finds the level it has read.
-/

set_option autoImplicit false

namespace Beatbox

open Runs ReadModifyWrite

inductive Party where
  | joystick
  | udp
  deriving DecidableEq

/-- Program points: the next access of a thread. -/
inductive Pc where
  | idle
  /-- `if (currentMode == 3)` -/
  | cycleTest
  /-- `currentMode = 1` -/
  | cycleReset
  /-- `currentMode++`, the read -/
  | cycleLoad
  /-- `currentMode++`, the write -/
  | cycleStore (m : Int)
  | setMode (m : beatMode)
  /-- `return currentMode` -/
  | modeReturn
  /-- `AudioMixer_getX() ± 5` -/
  | get (x : Level) (d : Dir)
  /-- `AudioMixer_setX(got ± 5)` -/
  | set (x : Level) (got : Int) (d : Dir)
  /-- reads for the reply -/
  | reply (n : Nat)
  deriving DecidableEq

def Request.entry : Request → Pc
  | .cycleMode => .cycleTest
  | .setMode m => .setMode m
  | .change x d => .get x d
  | .query n => .reply n

def access (t : Party) (c : Controls) : Pc → Pc × Controls
  | .idle => (.idle, c)
  | .cycleTest => (if c.currentMode = 3 then .cycleReset else .cycleLoad, c)
  | .cycleReset => (.modeReturn, { c with currentMode := 1 })
  | .cycleLoad => (.cycleStore c.currentMode, c)
  | .cycleStore m => (.modeReturn, { c with currentMode := m + 1 })
  | .setMode m => (.modeReturn, AudioMixer_setMode m c)
  | .modeReturn => (.idle, c)
  | .get x d => (.set x (c.get x) d, c)
  | .set x got d =>
    (match t with
      | .joystick => .idle
      | .udp => .reply 1,
     setLevel x (got + d.amount) c)
  | .reply n => (if n ≤ 1 then .idle else .reply (n - 1), c)

structure State where
  controls : Controls
  pc : Party → Pc

inductive Label where
  | press (j : joystick)
  | receive (cmd : Command)
  | go (t : Party)
  deriving DecidableEq

def State.begin (s : State) (t : Party) (r : Request) : State :=
  if s.pc t = .idle then { s with pc := Function.update s.pc t r.entry } else s

def step (s : State) : Label → State
  | .press j => s.begin .joystick (joystickThread j)
  | .receive cmd => s.begin .udp cmd.request
  | .go t =>
    { controls := (access t s.controls (s.pc t)).2
      pc := Function.update s.pc t (access t s.controls (s.pc t)).1 }

/-- Both threads idle. -/
def start (c : Controls) : State := { controls := c, pc := fun _ => .idle }

theorem begin_cases (s : State) (t : Party) (r : Request) :
    s.begin t r = s ∨
      s.pc t = .idle ∧ s.begin t r = { s with pc := Function.update s.pc t r.entry } := by
  unfold State.begin
  split
  · exact .inr ⟨by assumption, rfl⟩
  · exact .inl rfl

/-- The accesses that are not writes to a level leave both as they are. -/
theorem access_get (t : Party) (c : Controls) {pc : Pc} (x : Level)
    (h : ∀ y got d, pc ≠ .set y got d) : (access t c pc).2.get x = c.get x := by
  cases pc with
  | set y got d => exact absurd rfl (h y got d)
  | _ => cases x <;> rfl

/-- A thread that nothing comes in between does what the request does when run to completion. -/
theorem run_alone (c : Controls) (t : Party) (r : Request) :
    ∃ n, after step ((start c).begin t r) (List.replicate n (.go t)) = start (r.run c) := by
  have hbegin : (start c).begin t r =
      { controls := c, pc := Function.update (start c).pc t r.entry } := if_pos rfl
  have hgo : ∀ (c c' : Controls) (pc : Pc),
      step { controls := c', pc := Function.update (start c).pc t pc } (.go t) =
        { controls := (access t c' pc).2,
          pc := Function.update (start c).pc t (access t c' pc).1 } := by
    intro c c' pc
    simp [step]
  have hidle : ∀ c c' : Controls,
      ({ controls := c', pc := Function.update (start c).pc t .idle } : State) = start c' := by
    intro c c'
    exact congrArg (State.mk c') (Function.update_eq_self t (start c).pc)
  rw [hbegin]
  cases r with
  | cycleMode =>
    by_cases h3 : c.currentMode = 3
    · refine ⟨3, ?_⟩
      simp [Request.entry, hgo, access, h3, hidle, Request.run, AudioMixer_cycleNextMode]
    · refine ⟨4, ?_⟩
      simp [Request.entry, hgo, access, h3, hidle, Request.run, AudioMixer_cycleNextMode]
  | setMode m => exact ⟨2, by simp [Request.entry, hgo, access, hidle, Request.run]⟩
  | change x d =>
    cases t with
    | joystick => exact ⟨2, by simp [Request.entry, hgo, access, hidle, Request.run]⟩
    | udp => exact ⟨3, by simp [Request.entry, hgo, access, hidle, Request.run]⟩
  | query n =>
    have hreply : ∀ n, ∃ k, after step { controls := c, pc := Function.update (start c).pc t (.reply n) }
        (List.replicate k (.go t)) = start c := by
      intro n
      induction n with
      | zero => exact ⟨1, by simp [hgo, access, hidle]⟩
      | succ n ih =>
        obtain ⟨k, hk⟩ := ih
        rcases Nat.eq_zero_or_pos n with rfl | hpos
        · exact ⟨1, by simp [hgo, access, hidle]⟩
        · refine ⟨k + 1, ?_⟩
          rw [List.replicate_succ, after_cons, hgo, access, if_neg (by omega)]
          exact hk
    exact hreply n

/-! ## Valid controls -/

def ModeValid (m : Int) : Prop := m = 1 ∨ m = 2 ∨ m = 3

instance (m : Int) : Decidable (ModeValid m) := inferInstanceAs (Decidable (_ ∨ _))

def LevelsValid (c : Controls) : Prop := ∀ x : Level, 0 ≤ c.get x ∧ c.get x ≤ x.max

/-- The read of an increment does not find mode 3. -/
def LoadsBelowThree (s : State) : Label → Prop
  | .go t => ¬ (s.pc t = .cycleLoad ∧ s.controls.currentMode = 3)
  | _ => True

instance (s : State) : (l : Label) → Decidable (LoadsBelowThree s l)
  | .go _ => inferInstanceAs (Decidable (¬ _))
  | .press _ => inferInstanceAs (Decidable True)
  | .receive _ => inferInstanceAs (Decidable True)

/-- The mode is valid, and so is every mode about to be written. -/
structure ModeFine (s : State) : Prop where
  mode : ModeValid s.controls.currentMode
  store : ∀ t m, s.pc t = .cycleStore m → ModeValid (m + 1)

theorem levelsValid_set {c : Controls} (h : LevelsValid c) (x : Level) (v : Int) :
    LevelsValid (setLevel x v c) := by
  intro y
  rw [get_setLevel]
  split
  · rename_i hy
    obtain ⟨rfl, h0, hmax⟩ := hy
    exact ⟨h0, hmax⟩
  · exact h y

theorem levelsValid_step (s : State) (l : Label) (h : LevelsValid s.controls) :
    LevelsValid (step s l).controls := by
  have hbegin : ∀ t r, LevelsValid (s.begin t r).controls := by
    intro t r
    rcases begin_cases s t r with hs | ⟨-, hs⟩ <;> rw [hs] <;> exact h
  cases l with
  | press j => exact hbegin _ _
  | receive cmd => exact hbegin _ _
  | go t =>
    change LevelsValid (access t s.controls (s.pc t)).2
    cases hpc : s.pc t with
    | set x got d => exact levelsValid_set h x _
    | _ =>
      intro x
      rw [access_get t s.controls x (by simp)]
      exact h x

theorem modeFine_begin {s : State} (h : ModeFine s) (t : Party) (r : Request) :
    ModeFine (s.begin t r) := by
  rcases begin_cases s t r with hs | ⟨-, hs⟩
  · rw [hs]
    exact h
  · rw [hs]
    refine ⟨h.mode, fun u m hu => ?_⟩
    dsimp only at hu
    by_cases htu : u = t
    · subst htu
      rw [Function.update_self] at hu
      cases r <;> cases hu
    · rw [Function.update_of_ne htu] at hu
      exact h.store u m hu

theorem access_mode (t : Party) {c : Controls} {pc : Pc} (hmode : ModeValid c.currentMode)
    (hstore : ∀ m, pc = .cycleStore m → ModeValid (m + 1)) :
    ModeValid (access t c pc).2.currentMode := by
  cases pc with
  | cycleStore m => exact hstore m rfl
  | cycleReset => exact .inl rfl
  | setMode m => cases m <;> simp [access, AudioMixer_setMode, beatMode.value, ModeValid]
  | set x got d =>
    have hsame : (access t c (.set x got d)).2.currentMode = c.currentMode := mode_setLevel ..
    rw [hsame]
    exact hmode
  | _ => exact hmode

/-- Only the read of an increment decides what mode will be written. -/
theorem access_store (t : Party) {c : Controls} {pc : Pc} {m : Int}
    (h : (access t c pc).1 = .cycleStore m) : pc = .cycleLoad ∧ m = c.currentMode := by
  cases pc with
  | cycleLoad => exact ⟨rfl, (Pc.cycleStore.inj h).symm⟩
  | cycleTest =>
    simp only [access] at h
    split at h <;> cases h
  | reply n =>
    simp only [access] at h
    split at h <;> cases h
  | set x got d => cases t <;> cases h
  | _ => cases h

theorem modeFine_step (s : State) (l : Label) (h : ModeFine s) (hl : LoadsBelowThree s l) :
    ModeFine (step s l) := by
  cases l with
  | press j => exact modeFine_begin h _ _
  | receive cmd => exact modeFine_begin h _ _
  | go t =>
    refine ⟨access_mode t h.mode (h.store t), fun u m hu => ?_⟩
    change Function.update s.pc t _ u = _ at hu
    by_cases htu : u = t
    · subst htu
      rw [Function.update_self] at hu
      obtain ⟨hpc, rfl⟩ := access_store u hu
      have hne : s.controls.currentMode ≠ 3 := fun h3 => hl ⟨hpc, h3⟩
      have hmode := h.mode
      unfold ModeValid at hmode ⊢
      omega
    · rw [Function.update_of_ne htu] at hu
      exact h.store u m hu

/-- **Both levels are always in their range; the mode is valid in every state of a run in which no
increment reads mode 3**, whether or not a call is in progress. -/
theorem controls_valid (tr : List Label) :
    LevelsValid (after step (start AudioMixer_init) tr).controls ∧
      (Throughout step LoadsBelowThree (start AudioMixer_init) tr →
        ModeValid (after step (start AudioMixer_init) tr).controls.currentMode) := by
  constructor
  · have hinit : LevelsValid AudioMixer_init := fun x => by cases x <;> decide
    exact @invariant_of_step _ _ step (fun s => LevelsValid s.controls) levelsValid_step _ hinit tr
  · intro htr
    have hinit : ModeFine (start AudioMixer_init) := ⟨.inl rfl, fun _ _ h => by cases h⟩
    exact (invariant modeFine_step hinit htr).mode

theorem controls_valid_cycle :
    ModeValid (after step (start AudioMixer_init)
      [.press .CENTER, .go .joystick, .receive .modeRock, .go .joystick, .go .udp,
        .go .joystick]).controls.currentMode :=
  (controls_valid _).2 (by decide)

/-- The handler sets CUSTOM between the test for 3 and the increment. -/
theorem mode_four :
    let s := after step (start AudioMixer_init)
      [.press .CENTER, .go .joystick, .receive .modeCustom, .go .udp, .go .joystick, .go .joystick,
        .go .joystick]
    s.pc .joystick = .idle ∧ s.controls.currentMode = 4 ∧ ¬ ModeValid s.controls.currentMode := by
  decide

/-! ## Updates of a level -/

/-- The value a change is to write, `none` if it is refused. -/
def newLevel (x : Level) (d : Dir) (v : Int) : Option Int :=
  if 0 ≤ v + d.amount ∧ v + d.amount ≤ x.max then some (v + d.amount) else none

/-- The request as one for a change of the level `x`. -/
def Request.changes (x : Level) : Request → Option Dir
  | .change y d => if y = x then some d else none
  | _ => none

/-- The change of the level `x` that a step starts. -/
def made (x : Level) (s : State) (l : Label) : List (Party × Dir) :=
  let asked := fun (t : Party) (r : Request) =>
    if s.pc t = .idle then ((r.changes x).map (t, ·)).toList else []
  match l with
  | .press j => asked .joystick (joystickThread j)
  | .receive cmd => asked .udp cmd.request
  | .go _ => []

/-- The changes `rs` of the level `x`, one at a time. -/
def oneByOne (x : Level) (c : Controls) (rs : List (Party × Dir)) : Int :=
  (rs.foldl (fun c r => (Request.change x r.2).run c) c).get x

/-- The change of the level `x` that is about to be written back, with the value it has read. -/
def Pc.writesBack (x : Level) : Pc → Option (Int × Dir)
  | .set y got d => if y = x ∧ (newLevel x d got).isSome then some (got, d) else none
  | _ => none

/-- A change that is written back finds the level it has read. -/
def SetsWhatItRead (x : Level) (s : State) : Label → Prop
  | .go t => ∀ w ∈ (s.pc t).writesBack x, s.controls.get x = w.1
  | _ => True

instance (x : Level) (s : State) : (l : Label) → Decidable (SetsWhatItRead x s l)
  | .go t => inferInstanceAs (Decidable (∀ w ∈ (s.pc t).writesBack x, s.controls.get x = w.1))
  | .press _ => inferInstanceAs (Decidable True)
  | .receive _ => inferInstanceAs (Decidable True)

def phase (x : Level) : Pc → Phase Dir Int
  | .get y d => if y = x then .asked d else .idle
  | .set y got d => if y = x then .read d got else .idle
  | _ => .idle

theorem get_set (x : Level) (got : Int) (d : Dir) (c : Controls) :
    (setLevel x (got + d.amount) c).get x = (newLevel x d got).getD (c.get x) := by
  rw [get_setLevel, newLevel]
  by_cases h : 0 ≤ got + d.amount ∧ got + d.amount ≤ x.max
  · rw [if_pos ⟨rfl, h⟩, if_pos h]
    rfl
  · rw [if_neg fun h' => h h'.2, if_neg h]
    rfl

theorem oneByOne_eq (x : Level) (c : Controls) (rs : List (Party × Dir)) :
    oneByOne x c rs = inOrder (newLevel x) (c.get x) rs := by
  induction rs generalizing c with
  | nil => rfl
  | cons r rs ih =>
    rw [oneByOne, List.foldl_cons, ← oneByOne, ih, inOrder, inOrder, List.foldl_cons]
    congr 1
    exact get_set x (c.get x) r.2 c

theorem phase_update (x : Level) (pc : Party → Pc) (t : Party) (next : Pc) :
    (fun u => phase x (Function.update pc t next u)) =
      Function.update (fun u => phase x (pc u)) t (phase x next) := by
  funext u
  by_cases hu : u = t
  · subst hu
    rw [Function.update_self, Function.update_self]
  · rw [Function.update_of_ne hu, Function.update_of_ne hu]

section

variable {x : Level} {v₀ : Int} {rs : List (Party × Dir)}

/-- The level of a state is what an order of the changes made so far gives. -/
def Follows (x : Level) (v₀ : Int) (rs : List (Party × Dir)) (s : State) : Prop :=
  Linearized (newLevel x) v₀ (s.controls.get x) rs fun u => phase x (s.pc u)

theorem follows_begin {s : State} (h : Follows x v₀ rs s) (t : Party) (r : Request) :
    Follows x v₀
      (rs ++ if s.pc t = .idle then ((r.changes x).map (t, ·)).toList else []) (s.begin t r) := by
  unfold State.begin
  split
  · rename_i hidle
    have hphase : phase x (s.pc t) = .idle := by rw [hidle]; rfl
    rw [Follows, phase_update]
    cases hr : r.changes x with
    | none =>
      have hsame : phase x r.entry = phase x (s.pc t) := by
        rw [hphase]
        cases r with
        | change y d =>
          rw [Request.changes] at hr
          split at hr
          · cases hr
          · rename_i hne
            exact if_neg hne
        | _ => rfl
      rw [hsame, Function.update_eq_self (f := fun u => phase x (s.pc u))]
      simpa [Follows] using h
    | some d =>
      have hask : phase x r.entry = .asked d := by
        cases r with
        | change y e =>
          rw [Request.changes] at hr
          split at hr
          · rename_i heq
            cases hr
            exact if_pos heq
          · cases hr
        | _ => cases hr
      rw [hask]
      exact h.ask hphase d
  · simpa using h

/-- Every access but that of a change of the level leaves the level and what is owed as they are. -/
theorem access_phase (x : Level) (t : Party) (c : Controls) {pc : Pc}
    (hget : ∀ d, pc ≠ .get x d) (hset : ∀ got d, pc ≠ .set x got d) :
    (access t c pc).2.get x = c.get x ∧ phase x (access t c pc).1 = phase x pc := by
  cases pc with
  | get y d =>
    have hne : ¬ y = x := fun h => hget d (by rw [h])
    exact ⟨rfl, by simp [access, phase, hne]⟩
  | set y got d =>
    have hne : ¬ y = x := fun h => hset got d (by rw [h])
    constructor
    · change (setLevel y _ c).get x = _
      rw [get_setLevel, if_neg fun h => hne h.1.symm]
    · cases t <;> simp [access, phase, hne]
  | cycleTest =>
    refine ⟨rfl, ?_⟩
    simp only [access]
    split <;> rfl
  | reply n =>
    refine ⟨rfl, ?_⟩
    simp only [access]
    split <;> rfl
  | cycleReset => exact ⟨by cases x <;> rfl, rfl⟩
  | cycleStore m => exact ⟨by cases x <;> rfl, rfl⟩
  | setMode m => exact ⟨by cases x <;> rfl, rfl⟩
  | _ => exact ⟨rfl, rfl⟩

theorem follows_go {s : State} (h : Follows x v₀ rs s) (t : Party)
    (hset : SetsWhatItRead x s (.go t)) : Follows x v₀ rs (step s (.go t)) := by
  rw [Follows, step, phase_update]
  dsimp only
  by_cases hget : ∃ d, s.pc t = .get x d
  · obtain ⟨d, hpc⟩ := hget
    have hasked : phase x (s.pc t) = .asked d := by rw [hpc]; exact if_pos rfl
    have hread : phase x (access t s.controls (s.pc t)).1 = .read d (s.controls.get x) := by
      rw [hpc]
      exact if_pos rfl
    have hsame : (access t s.controls (s.pc t)).2.get x = s.controls.get x := by rw [hpc]; rfl
    rw [hread, hsame]
    exact h.read hasked
  by_cases hput : ∃ got d, s.pc t = .set x got d
  · obtain ⟨got, d, hpc⟩ := hput
    have hread : phase x (s.pc t) = .read d got := by rw [hpc]; exact if_pos rfl
    have hidle : phase x (access t s.controls (s.pc t)).1 = .idle := by
      rw [hpc]
      cases t <;> rfl
    have hnew : (access t s.controls (s.pc t)).2.get x =
        (newLevel x d got).getD (s.controls.get x) := by
      rw [hpc]
      exact get_set x got d s.controls
    rw [hidle, hnew]
    refine h.set hread fun hsome => hset (got, d) ?_
    rw [hpc, Pc.writesBack, if_pos ⟨rfl, hsome⟩]
    rfl
  · obtain ⟨hlevel, hphase⟩ := access_phase x t s.controls (fun d hd => hget ⟨d, hd⟩)
      fun got d hd => hput ⟨got, d, hd⟩
    rw [hlevel, hphase, Function.update_eq_self (f := fun u => phase x (s.pc u))]
    exact h

theorem follows_run {s : State} (h : Follows x v₀ rs s) {tr : List Label}
    (htr : Throughout step (SetsWhatItRead x) s tr) :
    Follows x v₀ (rs ++ collect step (made x) s tr) (after step s tr) := by
  induction tr generalizing s rs with
  | nil => simpa using h
  | cons l tr ih =>
    rw [after_cons, collect_cons, ← List.append_assoc]
    refine ih ?_ htr.2
    cases l with
    | press j => exact follows_begin h _ _
    | receive cmd => exact follows_begin h _ _
    | go t =>
      rw [made, List.append_nil]
      exact follows_go h t htr.1

end

/-- Once both threads are idle, the level is what some order of the changes made gives, one at a
time, with each thread's changes in the order it made them. -/
def NoLostUpdate (x : Level) (c : Controls) (tr : List Label) : Prop :=
  (∀ t, (after step (start c) tr).pc t = .idle) →
    ∃ order : List (Party × Dir),
      (∀ t, requestsOf t order = requestsOf t (collect step (made x) (start c) tr)) ∧
        oneByOne x c order = (after step (start c) tr).controls.get x

/-- **No update is lost in a run in which each change that is written back finds the level it has
read.** -/
theorem no_lost_update (x : Level) (c : Controls) (tr : List Label)
    (htr : Throughout step (SetsWhatItRead x) (start c) tr) : NoLostUpdate x c tr := by
  intro hidle
  have hstart : Follows x (c.get x) [] (start c) := Linearized.start _
  have hrun := follows_run hstart htr
  rw [List.nil_append] at hrun
  obtain ⟨order, hsame, hvalue⟩ := hrun.finished fun t => by rw [hidle t]; rfl
  exact ⟨order, hsame, by rw [oneByOne_eq, hvalue]⟩

theorem no_lost_update_two :
    NoLostUpdate .volume AudioMixer_init
      [.press .UP, .go .joystick, .receive .volumeUp, .go .joystick, .go .udp, .go .udp, .go .udp] :=
  no_lost_update _ _ _ (by decide)

/-- Both threads read 50 and both write 55. -/
theorem one_update_lost :
    ¬ NoLostUpdate .volume AudioMixer_init
      [.press .UP, .receive .volumeUp, .go .joystick, .go .udp, .go .joystick, .go .udp,
        .go .udp] := by
  intro h
  obtain ⟨order, hsame, hvalue⟩ := h fun t => by cases t <;> decide
  have hj : requestsOf .joystick order = [.up] := (hsame .joystick).trans (by decide)
  have hu : requestsOf .udp order = [.up] := (hsame .udp).trans (by decide)
  have hfinal : oneByOne .volume AudioMixer_init order = 55 := hvalue.trans (by decide)
  -- the order has one request of each thread, both up
  match order with
  | [] => cases hj
  | [(.joystick, _)] => cases hu
  | [(.udp, _)] => cases hj
  | [(.joystick, d), (.udp, e)] =>
    cases hj
    cases hu
    exact absurd hfinal (by decide)
  | [(.udp, d), (.joystick, e)] =>
    cases hj
    cases hu
    exact absurd hfinal (by decide)
  | (.joystick, _) :: (.joystick, _) :: _ => cases hj
  | (.udp, _) :: (.udp, _) :: _ => cases hu
  | (.joystick, _) :: (.udp, _) :: (.joystick, _) :: _ => cases hj
  | (.joystick, _) :: (.udp, _) :: (.udp, _) :: _ => cases hu
  | (.udp, _) :: (.joystick, _) :: (.joystick, _) :: _ => cases hj
  | (.udp, _) :: (.joystick, _) :: (.udp, _) :: _ => cases hu

end Beatbox
