import Cmpt433.Sampler.Stores

/-!
# Dips of the light level (`work/as2/sampler.c`)

The loop of `samplerThread` compares each voltage with a running average, over exact rationals.  A
dip is counted and replaces the voltage by the average; once a second the count decays.

* `detect` — lines 228–246; `endSecond` — lines 269–282; `pass` — a pass of the loop.
* `dips_decay` — the two counters of the decay reach 0 together.
-/

set_option autoImplicit false

namespace Sampler

open Runs

/-! ## The loop -/

def A2D_MAX_READING : ℚ := 4095
def A2D_VOLTAGE_REF_V : ℚ := 9 / 5

def exponential_smoothing (currentAverage nth_sample a : ℚ) : ℚ :=
  a * nth_sample + (1 - a) * currentAverage

def voltageOf (reading : Nat) : ℚ := reading / A2D_MAX_READING * A2D_VOLTAGE_REF_V

structure Detector where
  currentAverage : ℚ
  lastDip : Int

/-- What a reading leads to: the variables after it, whether `dipCount` is incremented, and the
voltage that is stored. -/
structure Sample where
  detector : Detector
  dip : Bool
  voltage : ℚ

def detect (reading : Nat) (d : Detector) : Sample :=
  let voltage := voltageOf reading
  let currentAverage := exponential_smoothing d.currentAverage voltage (1 / 1000)
  if d.lastDip = 0 ∧ voltage ≤ currentAverage - 1 / 10 then
    { detector := ⟨currentAverage, 1⟩, dip := true, voltage := currentAverage }
  else if d.lastDip ≠ 0 ∧ voltage > currentAverage + 7 / 100 then
    { detector := ⟨currentAverage, 0⟩, dip := false, voltage }
  else { detector := ⟨currentAverage, d.lastDip⟩, dip := false, voltage }

structure Counters where
  dipCount : Int
  recentDips : Int
  secondsWithDips : Int

/-- `a / b`, for a positive divisor only. -/
def quotient (a b : Int) : Option Int := if 0 < b then some (a.tdiv b) else none

/-- The bookkeeping at the end of a second. -/
def endSecond (c : Counters) : Option Counters := do
  let c ←
    if c.recentDips = c.dipCount ∧ c.dipCount ≠ 0 then
      if c.secondsWithDips > 0 then do
        let dipsPerSec ← quotient c.dipCount c.secondsWithDips
        pure { c with
          dipCount := c.dipCount - dipsPerSec
          secondsWithDips := c.secondsWithDips - 1 }
      else pure c
    else if c.recentDips ≠ c.dipCount ∧ c.dipCount ≠ 0 then
      pure { c with secondsWithDips := c.secondsWithDips + 1 }
    else pure c
  return { c with recentDips := c.dipCount }

/-- What the counters see of the loop. -/
inductive Tick where
  | dip
  | second

def Tick.apply : Tick → Counters → Option Counters
  | .dip, c => some { c with dipCount := c.dipCount + 1 }
  | .second, c => endSecond c

def tickStep (c : Option Counters) (t : Tick) : Option Counters := c.bind t.apply

/-- The counters when the thread starts. -/
def noDips : Counters := ⟨0, 0, 0⟩

/-- A pass of the loop: a reading of the light sensor, and whether a second is over. -/
structure Pass where
  reading : Nat
  secondOver : Bool

structure Loop where
  detector : Detector
  counters : Counters
  hist : History ℚ

/-- The start of the thread; the potentiometer keeps the value `size`. -/
def Loop.start (size : Nat) : Loop := ⟨⟨0, 0⟩, noDips, init size⟩

def pass (p : Pass) (s : Loop) : Option Loop := do
  let sample := detect p.reading s.detector
  let counters :=
    if sample.dip then { s.counters with dipCount := s.counters.dipCount + 1 } else s.counters
  let hist ← store sample.voltage s.hist
  let counters ← if p.secondOver then endSecond counters else pure counters
  return ⟨sample.detector, counters, hist⟩

def passStep (s : Option Loop) (p : Pass) : Option Loop := s.bind (pass p)

def detectStep (d : Detector) (reading : Nat) : Detector := (detect reading d).detector

/-! ## The decay -/

/-- The counters at any time: `recentDips` is what `dipCount` was at the last second. -/
structure Counting (c : Counters) : Prop where
  seconds_nonneg : 0 ≤ c.secondsWithDips
  seconds_le : c.secondsWithDips ≤ c.recentDips
  zero_iff : c.recentDips = 0 ↔ c.secondsWithDips = 0
  recent_le : c.recentDips ≤ c.dipCount

theorem noDips_counting : Counting noDips := by constructor <;> decide

/-- One second's share of the dips: at least one dip, and it leaves at least one dip for each of the
other seconds. -/
theorem share_spec {d s : Int} (hs : 0 < s) (hd : s ≤ d) :
    1 ≤ d.tdiv s ∧ s - 1 ≤ d - d.tdiv s ∧ (d - d.tdiv s = 0 ↔ s = 1) := by
  have hdiv := Int.mul_tdiv_add_tmod d s
  have hmod := Int.tmod_nonneg (a := d) s (by omega)
  have hlt := Int.tmod_lt_of_pos d hs
  generalize d.tdiv s = q at *
  generalize d.tmod s = t at *
  have hq : 1 ≤ q := by
    by_contra hneg
    have : s * q ≤ 0 := Int.mul_nonpos_of_nonneg_of_nonpos hs.le (by omega)
    omega
  have hrest : 0 ≤ (s - 1) * (q - 1) := Int.mul_nonneg (by omega) (by omega)
  have hsplit : (s - 1) * (q - 1) = s * q - s - q + 1 := by ring
  refine ⟨hq, by omega, ?_, ?_⟩
  · intro hzero
    omega
  · rintro rfl
    omega

/-- The counters after the bookkeeping of a second. -/
structure Settled (c : Counters) : Prop where
  counting : Counting c
  recent : c.recentDips = c.dipCount

/-- A second with dips counts as one more; a quiet one takes its share away. -/
theorem endSecond_spec {c : Counters} (h : Counting c) :
    ∃ c', endSecond c = some c' ∧ Settled c' ∧
      (c.recentDips = c.dipCount → 0 < c.secondsWithDips →
        c'.dipCount < c.dipCount ∧ c'.secondsWithDips = c.secondsWithDips - 1) ∧
      (c.recentDips = c.dipCount → c.secondsWithDips = 0 → c' = c) := by
  obtain ⟨h0, hle, hzero, hrecent⟩ := h
  unfold endSecond
  by_cases hquiet : c.recentDips = c.dipCount
  · by_cases hnone : c.dipCount = 0
    · refine ⟨c, ?_, ⟨⟨h0, hle, hzero, hrecent⟩, hquiet⟩, fun _ hpos => by omega, fun _ _ => rfl⟩
      rw [if_neg (by omega), if_neg (by omega)]
      exact congrArg (fun r => some { c with recentDips := r }) hquiet.symm
    · have hpos : 0 < c.secondsWithDips := by omega
      obtain ⟨hone, hleft, hlast⟩ := share_spec hpos (show c.secondsWithDips ≤ c.dipCount by omega)
      rw [if_pos ⟨hquiet, hnone⟩, if_pos hpos, quotient, if_pos hpos]
      refine ⟨_, rfl, ⟨⟨?_, ?_, ?_, le_rfl⟩, rfl⟩, fun _ _ => ⟨?_, rfl⟩, fun _ hs => by omega⟩
      all_goals dsimp only; omega
  · rw [if_neg (by omega), if_pos ⟨hquiet, by omega⟩]
    refine ⟨_, rfl, ⟨⟨?_, ?_, ?_, le_rfl⟩, rfl⟩, by omega, by omega⟩
    all_goals dsimp only; omega

theorem tick_counting {c : Counters} (h : Counting c) (t : Tick) :
    ∃ c', t.apply c = some c' ∧ Counting c' := by
  cases t with
  | dip =>
    have := h.recent_le
    exact ⟨_, rfl, h.seconds_nonneg, h.seconds_le, h.zero_iff, by dsimp only; omega⟩
  | second =>
    obtain ⟨c', hc, hsettled, -⟩ := endSecond_spec h
    exact ⟨c', hc, hsettled.counting⟩

/-- The invariant over every order of dips and seconds. -/
theorem ticks_counting (ticks : List Tick) :
    ∃ c, after tickStep (some noDips) ticks = some c ∧ Counting c := by
  refine @invariant_of_step _ _ tickStep (fun o => ∃ c, o = some c ∧ Counting c) ?_ _
    ⟨_, rfl, noDips_counting⟩ ticks
  rintro _ t ⟨c, rfl, h⟩
  exact tick_counting h t

/-- The counters after `i` quiet seconds. -/
theorem quiet_seconds {c : Counters} (h : Settled c) (i : Nat) :
    ∃ c', after tickStep (some c) (List.replicate i .second) = some c' ∧ Settled c' ∧
      c'.secondsWithDips = max (c.secondsWithDips - i) 0 := by
  induction i with
  | zero => exact ⟨c, rfl, h, by have := h.counting.seconds_nonneg; push_cast; omega⟩
  | succ i ih =>
    obtain ⟨c₁, hc₁, hs₁, hsec₁⟩ := ih
    obtain ⟨c₂, hc₂, hs₂, hlower, hstay⟩ := endSecond_spec hs₁.counting
    refine ⟨c₂, ?_, hs₂, ?_⟩
    · rw [List.replicate_succ', after_append, hc₁]
      exact hc₂
    · rcases (show 0 ≤ c₁.secondsWithDips by omega).eq_or_lt with hzero | hpos
      · rw [hstay hs₁.recent hzero.symm]
        push_cast
        omega
      · rw [(hlower hs₁.recent hpos).2]
        push_cast
        omega

/-- **The dip count decays to 0**: at the end of every second, whatever dips came when, there are at
least as many dips as seconds with dips and neither without the other; each quiet second lowers
both until, after that many seconds, they are 0 and stay 0.  Every division is by a positive
number. -/
theorem dips_decay (ticks : List Tick) :
    ∃ c, after tickStep (some noDips) (ticks ++ [.second]) = some c ∧
      0 ≤ c.secondsWithDips ∧ c.secondsWithDips ≤ c.dipCount ∧
      (c.dipCount = 0 ↔ c.secondsWithDips = 0) ∧
      ∀ i : Nat, ∃ c₁ c₂,
        after tickStep (some noDips) (ticks ++ [.second] ++ List.replicate i .second) = some c₁ ∧
        after tickStep (some noDips) (ticks ++ [.second] ++ List.replicate (i + 1) .second) =
          some c₂ ∧
        (i < c.secondsWithDips →
          c₂.dipCount < c₁.dipCount ∧ c₂.secondsWithDips < c₁.secondsWithDips) ∧
        (c.secondsWithDips ≤ i → c₁.dipCount = 0 ∧ c₁.secondsWithDips = 0) := by
  obtain ⟨c₀, hc₀, hcounting⟩ := ticks_counting ticks
  obtain ⟨c, hc, hsettled, -⟩ := endSecond_spec hcounting
  have hrun : after tickStep (some noDips) (ticks ++ [.second]) = some c := by
    rw [after_append, hc₀]
    exact hc
  obtain ⟨⟨h0, hle, hzero, -⟩, hrecent⟩ := id hsettled
  rw [hrecent] at hle hzero
  refine ⟨c, hrun, h0, hle, hzero, fun i => ?_⟩
  obtain ⟨c₁, hc₁, hs₁, hsec₁⟩ := quiet_seconds hsettled i
  obtain ⟨c₂, hc₂, -, hlower, -⟩ := endSecond_spec hs₁.counting
  rw [after_append, hrun, after_append, hrun]
  refine ⟨c₁, c₂, hc₁, ?_, fun hi => ?_, fun hi => ?_⟩
  · rw [List.replicate_succ', after_append, hc₁]
    exact hc₂
  · obtain ⟨hdips, hseconds⟩ := hlower hs₁.recent (by omega)
    exact ⟨hdips, by omega⟩
  · have hzero₁ := hs₁.counting.zero_iff
    have hrecent₁ := hs₁.recent
    omega

/-! ## The loop from its parts -/

/-- The ticks of a pass. -/
def passTicks (d : Detector) (p : Pass) : List Tick :=
  (if (detect p.reading d).dip then [.dip] else []) ++ if p.secondOver then [.second] else []

/-- The voltages that are stored, from the detector's state `d` on. -/
def storedFrom (d : Detector) (readings : List Nat) : List ℚ :=
  collect detectStep (fun d reading => [(detect reading d).voltage]) d readings

theorem pass_spec {s : Loop} (hc : Counting s.counters) (wf : WellFormed s.hist) (p : Pass) :
    ∃ s', pass p s = some s' ∧ s'.detector = detectStep s.detector p.reading ∧
      after tickStep (some s.counters) (passTicks s.detector p) = some s'.counters ∧
      store (detect p.reading s.detector).voltage s.hist = some s'.hist ∧
      Counting s'.counters ∧ WellFormed s'.hist := by
  obtain ⟨hist, hs, wf'⟩ := store_wellFormed wf (detect p.reading s.detector).voltage
  obtain ⟨c₁, hc₁, hcount₁⟩ : ∃ c₁, c₁ = (if (detect p.reading s.detector).dip then
      { s.counters with dipCount := s.counters.dipCount + 1 } else s.counters) ∧ Counting c₁ := by
    refine ⟨_, rfl, ?_⟩
    split
    · obtain ⟨c', hdip, hcount⟩ := tick_counting hc .dip
      exact Option.some.inj hdip ▸ hcount
    · exact hc
  have hticks : after tickStep (some s.counters)
      (if (detect p.reading s.detector).dip then [.dip] else []) = some c₁ := by
    rw [hc₁]
    split <;> rfl
  rw [pass, ← hc₁, hs, passTicks, after_append, hticks]
  cases p.secondOver with
  | true =>
    obtain ⟨c₂, hc₂, hcount₂⟩ := tick_counting hcount₁ .second
    have hend : endSecond c₁ = some c₂ := hc₂
    exact ⟨⟨_, c₂, hist⟩, by simp [hend], rfl, hc₂, rfl, hcount₂, wf'⟩
  | false => exact ⟨⟨_, c₁, hist⟩, rfl, rfl, rfl, rfl, hcount₁, wf'⟩

/-- A run of the loop: the detector sees the readings, the counters their ticks, and the history
the stored voltages. -/
theorem loop_run {s : Loop} (hc : Counting s.counters) (wf : WellFormed s.hist) (ps : List Pass) :
    ∃ s', after passStep (some s) ps = some s' ∧
      s'.detector = after detectStep s.detector (ps.map Pass.reading) ∧
      after tickStep (some s.counters)
        (collect (fun d p => detectStep d p.reading) passTicks s.detector ps) = some s'.counters ∧
      stores (storedFrom s.detector (ps.map Pass.reading)) s.hist = some s'.hist := by
  induction ps generalizing s with
  | nil => exact ⟨s, rfl, rfl, rfl, rfl⟩
  | cons p ps ih =>
    obtain ⟨s₁, hpass, hdet, hticks, hstore, hc₁, wf₁⟩ := pass_spec hc wf p
    obtain ⟨s₂, hrun, hdet₂, hticks₂, hstores₂⟩ := ih hc₁ wf₁
    rw [hdet] at hdet₂ hticks₂ hstores₂
    refine ⟨s₂, ?_, hdet₂, ?_, ?_⟩
    · have hstep : passStep (some s) p = some s₁ := hpass
      rw [after_cons, hstep, hrun]
    · rw [collect_cons, after_append, hticks, hticks₂]
    · rw [storedFrom, List.map_cons, collect_cons, List.singleton_append, stores, hstore]
      exact hstores₂

/-! ## Which falls are counted -/

section

variable (readings : ℕ → ℕ)

/-- The detector before sample `i`. -/
def detector (i : ℕ) : Detector := along detectStep ⟨0, 0⟩ readings i

/-- The voltage of sample `i`. -/
def voltageAt (i : ℕ) : ℚ := voltageOf (readings i)

/-- The running average as updated at sample `i`. -/
def averageAt (i : ℕ) : ℚ := (detector readings (i + 1)).currentAverage

/-- `dipCount` is incremented at sample `i`. -/
def dipAt (i : ℕ) : Prop := (detect (readings i) (detector readings i)).dip = true

/-- Since the last increment before sample `i`, if there was one, some sample met `P`. -/
def SinceDip (P : ℕ → Prop) (i : ℕ) : Prop :=
  ∀ j < i, dipAt readings j → (∀ m, j < m → m < i → ¬ dipAt readings m) →
    ∃ m, j < m ∧ m < i ∧ P m

/-- The light is at least 0.07 V over the average. -/
def Rises (i : ℕ) : Prop := averageAt readings i + 7 / 100 < voltageAt readings i

theorem detect_average (reading : ℕ) (d : Detector) :
    (detect reading d).detector.currentAverage =
      exponential_smoothing d.currentAverage (voltageOf reading) (1 / 1000) := by
  rw [detect]
  split
  · rfl
  · split <;> rfl

/-- The three branches of the detection, at sample `i`. -/
theorem detector_succ (i : ℕ) :
    (dipAt readings i ∧ (detector readings i).lastDip = 0 ∧
      voltageAt readings i ≤ averageAt readings i - 1 / 10 ∧
      (detector readings (i + 1)).lastDip = 1) ∨
    (¬ dipAt readings i ∧
      ¬ ((detector readings i).lastDip = 0 ∧
        voltageAt readings i ≤ averageAt readings i - 1 / 10) ∧
      ((detector readings (i + 1)).lastDip = 0 ↔
        (detector readings i).lastDip = 0 ∨ Rises readings i)) := by
  have havg := detect_average (readings i) (detector readings i)
  have hnext : detector readings (i + 1) = (detect (readings i) (detector readings i)).detector :=
    rfl
  rw [dipAt, Rises, averageAt, hnext, havg, voltageAt, detect]
  split
  · rename_i hfall
    exact .inl ⟨rfl, hfall.1, hfall.2, rfl⟩
  · rename_i hno
    refine .inr ?_
    split
    · rename_i hrise
      exact ⟨by simp, hno, iff_of_true rfl (.inr hrise.2)⟩
    · rename_i hstay
      refine ⟨by simp, hno, ?_⟩
      by_cases harmed : (detector readings i).lastDip = 0
      · simp [harmed]
      · have hlow := fun h => hstay ⟨harmed, h⟩
        exact iff_of_false harmed (not_or.mpr ⟨harmed, hlow⟩)

/-- The flag is reset exactly when the light has risen since the last dip. -/
theorem armed_iff (i : ℕ) :
    (detector readings i).lastDip = 0 ↔ SinceDip readings (Rises readings) i := by
  induction i with
  | zero => exact iff_of_true rfl fun j hj => absurd hj (Nat.not_lt_zero j)
  | succ i ih =>
    rcases detector_succ readings i with ⟨hdip, -, -, hset⟩ | ⟨hnodip, -, hflag⟩
    · -- nothing lies between the dip at `i` and sample `i + 1`
      rw [hset]
      refine iff_of_false one_ne_zero fun hsince => ?_
      obtain ⟨m, h1, h2, -⟩ := hsince i (Nat.lt_succ_self i) hdip fun m h1 h2 => by omega
      omega
    · rw [hflag, ih]
      constructor
      · rintro h j hj hdip hlast
        have hji : j < i := lt_of_le_of_ne (by omega) (by rintro rfl; exact hnodip hdip)
        rcases h with hsince | hrise
        · obtain ⟨m, h1, h2, hm⟩ := hsince j hji hdip fun m h1 h2 => hlast m h1 (by omega)
          exact ⟨m, h1, by omega, hm⟩
        · exact ⟨i, hji, Nat.lt_succ_self i, hrise⟩
      · intro hsince
        by_cases hrise : Rises readings i
        · exact .inr hrise
        · refine .inl fun j hj hdip hlast => ?_
          obtain ⟨m, h1, h2, hm⟩ := hsince j (by omega) hdip fun m h1 h2 => by
            rcases Nat.lt_succ_iff_lt_or_eq.mp h2 with h2 | rfl
            · exact hlast m h1 h2
            · exact hnodip
          refine ⟨m, h1, lt_of_le_of_ne (by omega) ?_, hm⟩
          rintro rfl
          exact hrise hm

/-- **A fall is counted exactly when the light has risen by 0.07 V over its average since the last
one that was counted.** -/
theorem dip_counted_iff (i : ℕ) :
    dipAt readings i ↔
      voltageAt readings i ≤ averageAt readings i - 1 / 10 ∧
        SinceDip readings (Rises readings) i := by
  rw [← armed_iff]
  rcases detector_succ readings i with ⟨hdip, harmed, hfall, -⟩ | ⟨hnodip, hno, -⟩
  · exact iff_of_true hdip ⟨hfall, harmed⟩
  · exact iff_of_false hnodip fun h => hno ⟨h.2, h.1⟩

end

/-- Sixty bright samples, a fall, a recovery to 0.03 V over the average, a fall. -/
def shortRise (i : ℕ) : ℕ := if i < 60 then 4095 else if i = 61 then 307 else 0

/-- A light that has come back to its average, but not 0.07 V over it: the next fall is not
counted. -/
theorem fall_missed : ¬ ∀ readings : ℕ → ℕ, (∀ i, readings i ≤ 4095) → ∀ i,
    dipAt readings i ↔ voltageAt readings i ≤ averageAt readings i - 1 / 10 ∧
      SinceDip readings (fun m => averageAt readings m ≤ voltageAt readings m) i := by
  intro hall
  have hrange : ∀ i, shortRise i ≤ 4095 := by
    intro i
    unfold shortRise
    split_ifs <;> omega
  have hfall : voltageAt shortRise 62 ≤ averageAt shortRise 62 - 1 / 10 := by
    unfold voltageAt averageAt
    decide +kernel
  have hback : averageAt shortRise 61 ≤ voltageAt shortRise 61 := by
    unfold voltageAt averageAt
    decide +kernel
  have h61 : ¬ dipAt shortRise 61 := by
    unfold dipAt
    decide +kernel
  have h62 : ¬ dipAt shortRise 62 := by
    unfold dipAt
    decide +kernel
  refine h62 ((hall shortRise hrange 62).mpr ⟨hfall, fun j hj hdip _ => ?_⟩)
  have hne : j ≠ 61 := by
    rintro rfl
    exact h61 hdip
  exact ⟨61, by omega, by decide, hback⟩

/-! ## What is stored -/

/-- The running average, with one more reading. -/
def smooth (average : ℚ) (reading : ℕ) : ℚ :=
  exponential_smoothing average (voltageOf reading) (1 / 1000)

/-- No voltage is 0.1 V under the running average. -/
def Steady (readings : List ℕ) : Prop :=
  Throughout smooth (fun average reading => smooth average reading - 1 / 10 < voltageOf reading) 0
    readings

theorem stored_eq_iff (d : Detector) (hd : d.lastDip = 0) (readings : List ℕ) :
    storedFrom d readings = readings.map voltageOf ↔
      Throughout smooth
        (fun average reading => smooth average reading - 1 / 10 < voltageOf reading)
        d.currentAverage readings := by
  induction readings generalizing d with
  | nil => exact iff_of_true rfl trivial
  | cons r rs ih =>
    have havg : (detectStep d r).currentAverage = smooth d.currentAverage r := detect_average r d
    rw [throughout_cons, storedFrom, collect_cons, List.singleton_append, List.map_cons,
      List.cons_eq_cons]
    by_cases hfall : voltageOf r ≤ smooth d.currentAverage r - 1 / 10
    · -- the average is stored, which is not the voltage
      have hstored : (detect r d).voltage = smooth d.currentAverage r := by
        rw [detect, if_pos ⟨hd, hfall⟩, smooth]
      rw [hstored]
      refine iff_of_false (fun h => ?_) (fun h => absurd h.1 (not_lt.mpr hfall))
      linarith [h.1]
    · have hkept : (detect r d).voltage = voltageOf r ∧ (detectStep d r).lastDip = 0 := by
        rw [detectStep, detect, if_neg fun h => hfall h.2, if_neg fun h => h.1 hd]
        exact ⟨rfl, hd⟩
      rw [hkept.1, ← havg]
      exact and_congr (iff_of_true rfl (by rw [havg]; exact not_le.mp hfall)) (ih _ hkept.2)

/-- **The history holds the readings exactly while the light is steady**: at the first dip the
running average is stored in the place of the voltage. -/
theorem stored_readings_iff (size : ℕ) (ps : List Pass) :
    let readings := ps.map Pass.reading
    let voltages := storedFrom ⟨0, 0⟩ readings
    ∃ s, after passStep (some (Loop.start size)) ps = some s ∧
      stores voltages (init size) = some s.hist ∧
      (voltages = readings.map voltageOf ↔ Steady readings) := by
  obtain ⟨s, hrun, -, -, hstores⟩ :=
    @loop_run (Loop.start size) noDips_counting (init_wellFormed size) ps
  exact ⟨s, hrun, hstores, stored_eq_iff ⟨0, 0⟩ rfl _⟩

/-- The dip after sixty bright samples is stored as 0.1 V, its reading is 0. -/
theorem average_stored : ¬ ∀ readings : List ℕ, (∀ r ∈ readings, r ≤ 4095) →
    storedFrom ⟨0, 0⟩ readings = readings.map voltageOf := by
  intro hall
  have hrange : ∀ r ∈ List.replicate 60 4095 ++ [0], r ≤ 4095 := by decide
  have hlast := congrArg List.getLast? (hall _ hrange)
  exact absurd hlast (by decide +kernel)

end Sampler
