import Cmpt433.Lib.Runs
import Cmpt433.Lib.Gaps

/-!
# The period timer (`as2/periodTimer.c`, and the same file in `pcmExample`)

A thread marks an event, any thread asks for the statistics of the periods since the last time
someone asked.  Both functions hold `s_lock` from their first access to the data to their last, so
the calls of all threads are one run, in the order the lock was taken.

* `Period_markEvent`, `Period_getStatisticsAndClear`, `updateStats` — the functions of the file.
* `Tracks` — how one event's table stands to the marks and reports so far.
* `periods_reported_once` — the reports cut the periods between the accepted marks into
  consecutive pieces, and each report has the count, the least, the greatest and the average period
  of its own piece.
* `reports_in_order` — no report has a negative period, and its average is between its least and
  its greatest; the least period of a later report is never 0.
* `sums_within_clock` — the loop's locals never leave the range of the clock.
-/

set_option autoImplicit false

namespace PeriodTimer

open Gaps Runs

def MAX_EVENT_TIMESTAMPS : ℕ := 1024 * 4

/-- One entry of `s_eventData`. -/
structure timestamps_t where
  timestampCount : ℕ
  timestampsInNs : Vector ℤ MAX_EVENT_TIMESTAMPS
  prevTimestampInNs : ℤ
  timestampCount_le : timestampCount ≤ MAX_EVENT_TIMESTAMPS

/-- What `Period_getStatisticsAndClear` fills in.  The source keeps the three periods in
milliseconds, each divided by `MS_PER_NS` as a `double`; here they stay the nanoseconds that are
divided. -/
structure Period_statistics_t where
  numSamples : ℕ
  minPeriodInNs : ℤ
  maxPeriodInNs : ℤ
  avgPeriodInNs : ℤ
  deriving DecidableEq, Repr

/-- The file's statics.  `lastTimeHack` is the static of `getTimeInNanoS`, shared by all events;
`aborted` is set once an assertion has failed. -/
structure Statics (Period_whichEvent : Type) where
  s_eventData : Period_whichEvent → timestamps_t
  lastTimeHack : ℤ
  aborted : Bool

/-! ## One event's table -/

namespace timestamps_t

/-- The entry as `Period_init` leaves it. -/
def zero : timestamps_t := ⟨0, Vector.replicate _ 0, 0, Nat.zero_le _⟩

/-- The timestamps in use. -/
def taken (d : timestamps_t) : List ℤ := d.timestampsInNs.toList.take d.timestampCount

/-- The store of `Period_markEvent`, inside its bounds check. -/
def push (d : timestamps_t) (now : ℤ) (h : d.timestampCount < MAX_EVENT_TIMESTAMPS) :
    timestamps_t where
  timestampCount := d.timestampCount + 1
  timestampsInNs := d.timestampsInNs.set d.timestampCount now h
  prevTimestampInNs := d.prevTimestampInNs
  timestampCount_le := h

/-- The last two statements of `Period_getStatisticsAndClear`. -/
def clear (d : timestamps_t) : timestamps_t where
  timestampCount := 0
  timestampsInNs := d.timestampsInNs
  prevTimestampInNs :=
    if h : 0 < d.timestampCount then
      d.timestampsInNs.get ⟨d.timestampCount - 1, by have := d.timestampCount_le; omega⟩
    else d.prevTimestampInNs
  timestampCount_le := Nat.zero_le _

theorem length_taken (d : timestamps_t) : d.taken.length = d.timestampCount := by
  rw [taken, List.length_take, Vector.length_toList, Nat.min_eq_left d.timestampCount_le]

theorem taken_push (d : timestamps_t) (now : ℤ) (h : d.timestampCount < MAX_EVENT_TIMESTAMPS) :
    (d.push now h).taken = d.taken ++ [now] := by
  unfold taken push
  rw [Vector.toList_set, List.take_add_one, List.take_set_of_le le_rfl,
    List.getElem?_set_self (by rw [Vector.length_toList]; exact h)]
  rfl

theorem prev_clear (d : timestamps_t) :
    d.clear.prevTimestampInNs = d.taken.getLastD d.prevTimestampInNs := by
  unfold clear
  by_cases h : 0 < d.timestampCount
  · have hlen : d.timestampCount - 1 < d.taken.length := by rw [length_taken]; omega
    have hlast : d.taken.getLast? = some d.taken[d.timestampCount - 1] := by
      rw [List.getLast?_eq_getElem?, length_taken, List.getElem?_eq_getElem hlen]
    rw [dif_pos h, List.getLastD_eq_getLast?, hlast, Option.getD_some]
    simp only [taken, List.getElem_take, Vector.getElem_toList]
    rfl
  · have hnil : d.taken = [] := List.eq_nil_of_length_eq_zero (by rw [length_taken]; omega)
    rw [dif_neg h, hnil]
    rfl

end timestamps_t

/-! ## The statistics -/

/-- The locals that the loop of `updateStats` changes. -/
structure Deltas where
  prevInNs : ℤ
  sumDeltasNs : ℤ
  minNs : ℤ
  maxNs : ℤ

/-- One pass of the loop. -/
def Deltas.pass (s : Deltas) (i : ℕ) (thisTime : ℤ) : Deltas :=
  let deltaNs := thisTime - s.prevInNs
  { prevInNs := thisTime
    sumDeltasNs := s.sumDeltasNs + deltaNs
    minNs := if i = 0 ∨ deltaNs < s.minNs then deltaNs else s.minNs
    maxNs := if i = 0 ∨ s.maxNs < deltaNs then deltaNs else s.maxNs }

/-- The loop, from the locals as they are before it. -/
def Deltas.passes (prevInNs : ℤ) (times : List ℤ) : Deltas :=
  times.zipIdx.foldl (fun s p => s.pass p.2 p.1) ⟨prevInNs, 0, 0, 0⟩

/-- The local `prevInNs` before the loop: at startup there is no previous sample. -/
def timestamps_t.prevInNs (pData : timestamps_t) : ℤ :=
  if pData.prevTimestampInNs = 0 then pData.timestampsInNs.get ⟨0, by decide⟩
  else pData.prevTimestampInNs

def updateStats (pData : timestamps_t) : Period_statistics_t :=
  let s := Deltas.passes pData.prevInNs pData.taken
  { numSamples := pData.timestampCount
    minPeriodInNs := s.minNs
    maxPeriodInNs := s.maxNs
    avgPeriodInNs :=
      if 0 < pData.timestampCount then s.sumDeltasNs.tdiv pData.timestampCount else 0 }

/-- `r` is the report about the periods `w`. -/
structure Summarizes (r : Period_statistics_t) (w : List ℤ) : Prop where
  numSamples : r.numSamples = w.length
  short : w.length ≤ MAX_EVENT_TIMESTAMPS
  none : w = [] → r.minPeriodInNs = 0 ∧ r.maxPeriodInNs = 0 ∧ r.avgPeriodInNs = 0
  least : w ≠ [] → IsLeast {g | g ∈ w} r.minPeriodInNs
  greatest : w ≠ [] → IsGreatest {g | g ∈ w} r.maxPeriodInNs
  average : w ≠ [] → r.avgPeriodInNs = w.sum.tdiv w.length

/-- What the loop has worked out once it has seen the periods `w`. -/
structure Seen (s : Deltas) (w : List ℤ) : Prop where
  sum : s.sumDeltasNs = w.sum
  none : w = [] → s.minNs = 0 ∧ s.maxNs = 0
  least : w ≠ [] → IsLeast {g | g ∈ w} s.minNs
  greatest : w ≠ [] → IsGreatest {g | g ∈ w} s.maxNs

theorem mem_snoc (w : List ℤ) (g : ℤ) : {x | x ∈ w ++ [g]} = insert g {x | x ∈ w} := by
  ext x
  simp [or_comm]

/-- One pass sees one period more. -/
theorem Seen.pass {s : Deltas} {w : List ℤ} (h : Seen s w) (thisTime : ℤ) :
    Seen (s.pass w.length thisTime) (w ++ [thisTime - s.prevInNs]) where
  sum := by
    rw [List.sum_append, List.sum_singleton, ← h.sum]
    rfl
  none := fun hnil => absurd hnil (List.append_ne_nil_of_right_ne_nil _ (List.cons_ne_nil _ _))
  least := by
    intro _
    unfold Deltas.pass
    rcases eq_or_ne w [] with rfl | hw
    · simp
    · have hmin := (h.least hw).insert (thisTime - s.prevInNs)
      rw [← mem_snoc, min_def_lt] at hmin
      simpa [List.length_eq_zero_iff, hw] using hmin
  greatest := by
    intro _
    unfold Deltas.pass
    rcases eq_or_ne w [] with rfl | hw
    · simp
    · have hmax := (h.greatest hw).insert (thisTime - s.prevInNs)
      rw [← mem_snoc, max_comm, max_def_lt] at hmax
      simpa [List.length_eq_zero_iff, hw] using hmax

theorem passes_concat (prevInNs : ℤ) (times : List ℤ) (t : ℤ) :
    Deltas.passes prevInNs (times ++ [t]) = (Deltas.passes prevInNs times).pass times.length t := by
  unfold Deltas.passes
  rw [List.zipIdx_append, List.foldl_append]
  simp

/-- The whole loop sees the gaps between the times. -/
theorem passes_seen (prevInNs : ℤ) (times : List ℤ) :
    (Deltas.passes prevInNs times).prevInNs = times.getLastD prevInNs ∧
      Seen (Deltas.passes prevInNs times) (gapsFrom prevInNs times) := by
  induction times using List.reverseRecOn with
  | nil => exact ⟨rfl, rfl, fun _ => ⟨rfl, rfl⟩, fun h => absurd rfl h, fun h => absurd rfl h⟩
  | append_singleton times t ih =>
    obtain ⟨hprev, hseen⟩ := ih
    have hpass := hseen.pass t
    rw [length_gapsFrom, ← passes_concat, hprev] at hpass
    rw [gapsFrom_append]
    refine ⟨?_, hpass⟩
    rw [passes_concat, List.getLastD_concat]
    rfl

/-- **One report** is about the gaps that lead to the timestamps in use. -/
theorem updateStats_summarizes (d : timestamps_t) :
    Summarizes (updateStats d) (gapsFrom d.prevInNs d.taken) := by
  have hlen : (gapsFrom d.prevInNs d.taken).length = d.timestampCount := by
    rw [length_gapsFrom, d.length_taken]
  have hseen := (passes_seen d.prevInNs d.taken).2
  refine ⟨hlen.symm, hlen.trans_le d.timestampCount_le, fun hnil => ?_, hseen.least,
    hseen.greatest, fun hne => ?_⟩
  · obtain ⟨hmin, hmax⟩ := hseen.none hnil
    have hzero : ¬0 < d.timestampCount := by rw [← hlen, hnil]; simp
    exact ⟨hmin, hmax, if_neg hzero⟩
  · have hpos : 0 < d.timestampCount := by
      rw [← hlen]
      exact List.length_pos_iff.mpr hne
    unfold updateStats
    rw [hlen, ← hseen.sum]
    exact if_pos hpos

/-- At startup the loop starts from the first timestamp. -/
theorem gapsFrom_startup {d : timestamps_t} (h : d.prevTimestampInNs = 0) :
    gapsFrom d.prevInNs d.taken = gaps d.taken := by
  unfold timestamps_t.prevInNs gaps
  rw [if_pos h]
  rcases eq_or_ne d.taken [] with hnil | hne
  · rw [hnil]
    rfl
  · have hpos : 0 < d.timestampCount := by
      rw [← d.length_taken]
      exact List.length_pos_iff.mpr hne
    have hsize : 0 < d.timestampsInNs.toList.length := by
      rw [Vector.length_toList]
      decide
    have hhead : d.taken.headD 0 = d.timestampsInNs.get ⟨0, by decide⟩ := by
      rw [List.headD_eq_head?_getD, List.head?_eq_getElem?, timestamps_t.taken,
        List.getElem?_take_of_lt hpos, List.getElem?_eq_getElem hsize, Vector.getElem_toList]
      rfl
    rw [hhead]

/-! ## The calls -/

section

variable {Period_whichEvent : Type} [DecidableEq Period_whichEvent]

/-- `getTimeInNanoS` with the clock at `nanoSeconds`; `none` where one of its assertions fails. -/
def getTimeInNanoS (s : Statics Period_whichEvent) (nanoSeconds : ℤ) :
    Option (ℤ × Statics Period_whichEvent) :=
  if 0 < nanoSeconds ∧ s.lastTimeHack < nanoSeconds then
    some (nanoSeconds, { s with lastTimeHack := nanoSeconds })
  else none

/-- What a call leaves behind besides the statics: the timestamp it stored, the warning it printed,
or the statistics it filled in. -/
inductive Note (Period_whichEvent : Type) where
  | marked (whichEvent : Period_whichEvent) (timestampInNs : ℤ)
  | warning (whichEvent : Period_whichEvent)
  | reported (whichEvent : Period_whichEvent) (pStats : Period_statistics_t)

/-- `clock` is what the clock shows if the call reads it. -/
def Period_markEvent (s : Statics Period_whichEvent) (whichEvent : Period_whichEvent) (clock : ℤ) :
    Statics Period_whichEvent × List (Note Period_whichEvent) :=
  if h : (s.s_eventData whichEvent).timestampCount < MAX_EVENT_TIMESTAMPS then
    match getTimeInNanoS s clock with
    | some (now, s') =>
      ({ s' with s_eventData :=
          Function.update s'.s_eventData whichEvent ((s.s_eventData whichEvent).push now h) },
        [.marked whichEvent now])
    | none => ({ s with aborted := true }, [])
  else (s, [.warning whichEvent])

def Period_getStatisticsAndClear (s : Statics Period_whichEvent)
    (whichEvent : Period_whichEvent) :
    Statics Period_whichEvent × List (Note Period_whichEvent) :=
  ({ s with s_eventData :=
      Function.update s.s_eventData whichEvent (s.s_eventData whichEvent).clear },
    [.reported whichEvent (updateStats (s.s_eventData whichEvent))])

/-- The statics after `Period_init`. -/
def Period_init : Statics Period_whichEvent := ⟨fun _ => timestamps_t.zero, 0, false⟩

/-- The calls that the threads make between `Period_init` and `Period_cleanup`. -/
inductive Call (Period_whichEvent : Type) where
  | markEvent (whichEvent : Period_whichEvent) (clock : ℤ)
  | getStatisticsAndClear (whichEvent : Period_whichEvent)

/-- One call; after a failed assertion there is no process to call anything. -/
def call (s : Statics Period_whichEvent) (c : Call Period_whichEvent) :
    Statics Period_whichEvent × List (Note Period_whichEvent) :=
  if s.aborted then (s, [])
  else match c with
    | .markEvent whichEvent clock => Period_markEvent s whichEvent clock
    | .getStatisticsAndClear whichEvent => Period_getStatisticsAndClear s whichEvent

def step (s : Statics Period_whichEvent) (c : Call Period_whichEvent) :
    Statics Period_whichEvent := (call s c).1

/-- The statics after the calls. -/
def ran (calls : List (Call Period_whichEvent)) : Statics Period_whichEvent :=
  after step Period_init calls

/-- What the calls leave behind, in order. -/
def notes (calls : List (Call Period_whichEvent)) : List (Note Period_whichEvent) :=
  collect step (fun s c => (call s c).2) Period_init calls

/-- The timestamps stored for an event. -/
def marksOf (whichEvent : Period_whichEvent) (ns : List (Note Period_whichEvent)) : List ℤ :=
  ns.filterMap fun
    | .marked e now => if e = whichEvent then some now else none
    | _ => none

/-- The reports about an event. -/
def reportsOf (whichEvent : Period_whichEvent) (ns : List (Note Period_whichEvent)) :
    List Period_statistics_t :=
  ns.filterMap fun
    | .reported e pStats => if e = whichEvent then some pStats else none
    | _ => none

/-- Everything one call can do. -/
theorem call_cases (s : Statics Period_whichEvent) (c : Call Period_whichEvent) :
    ((call s c).1.s_eventData = s.s_eventData ∧ (call s c).1.lastTimeHack = s.lastTimeHack ∧
      ((call s c).2 = [] ∨ ∃ e, (call s c).2 = [.warning e])) ∨
    (∃ e now h, s.lastTimeHack < now ∧ (call s c).1.lastTimeHack = now ∧
      (call s c).1.s_eventData = Function.update s.s_eventData e ((s.s_eventData e).push now h) ∧
      (call s c).2 = [.marked e now]) ∨
    (∃ e, (call s c).1.lastTimeHack = s.lastTimeHack ∧
      (call s c).1.s_eventData = Function.update s.s_eventData e (s.s_eventData e).clear ∧
      (call s c).2 = [.reported e (updateStats (s.s_eventData e))]) := by
  unfold call
  split
  · exact .inl ⟨rfl, rfl, .inl rfl⟩
  cases c with
  | markEvent e clock =>
    simp only [Period_markEvent]
    by_cases hroom : (s.s_eventData e).timestampCount < MAX_EVENT_TIMESTAMPS
    · by_cases hclock : 0 < clock ∧ s.lastTimeHack < clock
      · rw [dif_pos hroom, getTimeInNanoS, if_pos hclock]
        exact .inr (.inl ⟨e, clock, hroom, hclock.2, rfl, rfl, rfl⟩)
      · rw [dif_pos hroom, getTimeInNanoS, if_neg hclock]
        exact .inl ⟨rfl, rfl, .inl rfl⟩
    · rw [dif_neg hroom]
      exact .inl ⟨rfl, rfl, .inr ⟨e, rfl⟩⟩
  | getStatisticsAndClear e => exact .inr (.inr ⟨e, rfl, rfl, rfl⟩)

/-! ## Runs -/

/-- How an event's table stands to its marks and its reports: `done` are the marks that the reports
are about, and `ws` the periods of each report. -/
structure Tracks (d : timestamps_t) (marks : List ℤ) (reports : List Period_statistics_t)
    (done : List ℤ) (ws : List (List ℤ)) : Prop where
  marks : marks = done ++ d.taken
  prev : d.prevTimestampInNs = done.getLastD 0
  windows : ws.flatten = gaps done
  reports : List.Forall₂ Summarizes reports ws

theorem Tracks.push {d : timestamps_t} {marks done : List ℤ} {reports : List Period_statistics_t}
    {ws : List (List ℤ)} (h : Tracks d marks reports done ws) (now : ℤ)
    (hroom : d.timestampCount < MAX_EVENT_TIMESTAMPS) :
    Tracks (d.push now hroom) (marks ++ [now]) reports done ws where
  marks := by rw [h.marks, d.taken_push, List.append_assoc]
  prev := h.prev
  windows := h.windows
  reports := h.reports

/-- The periods not reported yet. -/
theorem Tracks.pending {d : timestamps_t} {marks done : List ℤ}
    {reports : List Period_statistics_t} {ws : List (List ℤ)}
    (h : Tracks d marks reports done ws) (hpos : ∀ m ∈ marks, 0 < m) :
    ws.flatten ++ gapsFrom d.prevInNs d.taken = gaps marks := by
  rcases eq_or_ne done [] with rfl | hne
  · rw [h.windows, h.marks, gapsFrom_startup h.prev]
    rfl
  · -- a mark is never 0, so the previous timestamp tells that there was one
    have hmem : done.getLastD 0 ∈ marks := by
      rw [h.marks, List.getLastD_eq_getLast?, List.getLast?_eq_some_getLast hne]
      exact List.mem_append_left _ (List.getLast_mem hne)
    have hprev : d.prevInNs = done.getLastD 0 := by
      unfold timestamps_t.prevInNs
      rw [h.prev, if_neg (hpos _ hmem).ne']
    rw [h.windows, h.marks, gaps_append hne, hprev]

theorem Tracks.clear {d : timestamps_t} {marks done : List ℤ} {reports : List Period_statistics_t}
    {ws : List (List ℤ)} (h : Tracks d marks reports done ws) (hpos : ∀ m ∈ marks, 0 < m) :
    Tracks d.clear marks (reports ++ [updateStats d]) marks
      (ws ++ [gapsFrom d.prevInNs d.taken]) where
  marks := (List.append_nil _).symm
  prev := by
    rw [timestamps_t.prev_clear, h.prev, h.marks]
    simp [List.getLastD_eq_getLast?, List.getLast?_append]
  windows := by
    rw [List.flatten_append, ← h.pending hpos]
    simp
  reports := List.rel_append h.reports (.cons (updateStats_summarizes d) .nil)

/-- The marks are stored in the order of the clock. -/
structure Clocked (lastTimeHack : ℤ) (marks : List ℤ) : Prop where
  sorted : (0 :: marks).Pairwise (· < ·)
  le_last : ∀ m ∈ 0 :: marks, m ≤ lastTimeHack

theorem Clocked.push {last now : ℤ} {marks : List ℤ} (h : Clocked last marks) (hnow : last < now) :
    Clocked now (marks ++ [now]) where
  sorted := by
    rw [← List.cons_append, List.pairwise_append]
    refine ⟨h.sorted, List.pairwise_singleton _ _, fun m hm n hn => ?_⟩
    rw [List.mem_singleton.mp hn]
    exact (h.le_last m hm).trans_lt hnow
  le_last := by
    intro m hm
    rw [← List.cons_append, List.mem_append] at hm
    rcases hm with hm | hm
    · exact ((h.le_last m hm).trans_lt hnow).le
    · exact (List.mem_singleton.mp hm).le

theorem Clocked.later {last now : ℤ} {marks : List ℤ} (h : Clocked last marks)
    (hnow : last ≤ now) : Clocked now marks :=
  ⟨h.sorted, fun m hm => (h.le_last m hm).trans hnow⟩

theorem Clocked.pos {last : ℤ} {marks : List ℤ} (h : Clocked last marks) : ∀ m ∈ marks, 0 < m :=
  (List.pairwise_cons.mp h.sorted).1

/-- The invariant of a run that has left `ns` behind. -/
structure Inv (s : Statics Period_whichEvent) (ns : List (Note Period_whichEvent)) : Prop where
  clocked : ∀ e, Clocked s.lastTimeHack (marksOf e ns)
  tracks : ∀ e, ∃ done ws, Tracks (s.s_eventData e) (marksOf e ns) (reportsOf e ns) done ws

theorem inv_init : Inv (Period_init : Statics Period_whichEvent) [] where
  clocked := fun _ => ⟨List.pairwise_singleton _ _, fun _ hm => (List.mem_singleton.mp hm).le⟩
  tracks := fun _ => ⟨[], [], rfl, rfl, rfl, .nil⟩

theorem marksOf_append (e : Period_whichEvent) (xs ys : List (Note Period_whichEvent)) :
    marksOf e (xs ++ ys) = marksOf e xs ++ marksOf e ys := List.filterMap_append

theorem reportsOf_append (e : Period_whichEvent) (xs ys : List (Note Period_whichEvent)) :
    reportsOf e (xs ++ ys) = reportsOf e xs ++ reportsOf e ys := List.filterMap_append

/-- **Step.** -/
theorem inv_step {s : Statics Period_whichEvent} {ns : List (Note Period_whichEvent)}
    (h : Inv s ns) (c : Call Period_whichEvent) : Inv (step s c) (ns ++ (call s c).2) := by
  rcases call_cases s c with ⟨hdata, hlast, hnotes⟩ | ⟨e, now, hroom, hnow, hlast, hdata, hnotes⟩ |
    ⟨e, hlast, hdata, hnotes⟩
  · have hnone : ∀ e', marksOf e' (call s c).2 = [] ∧ reportsOf e' (call s c).2 = [] := by
      intro e'
      rcases hnotes with hnotes | ⟨e, hnotes⟩ <;> rw [hnotes] <;> exact ⟨rfl, rfl⟩
    refine ⟨fun e' => ?_, fun e' => ?_⟩
    · rw [marksOf_append, (hnone e').1, List.append_nil, step, hlast]
      exact h.clocked e'
    · rw [marksOf_append, reportsOf_append, (hnone e').1, (hnone e').2, List.append_nil,
        List.append_nil, step, hdata]
      exact h.tracks e'
  · refine ⟨fun e' => ?_, fun e' => ?_⟩
    · rw [marksOf_append, hnotes, step, hlast]
      by_cases he : e = e'
      · have hmarks : marksOf e' [.marked e now] = [now] := by simp [marksOf, he]
        rw [hmarks]
        exact (h.clocked e').push hnow
      · have hmarks : marksOf e' [.marked e now] = [] := by simp [marksOf, he]
        rw [hmarks, List.append_nil]
        exact (h.clocked e').later hnow.le
    · have hreports : reportsOf e' [.marked e now] = [] := rfl
      rw [marksOf_append, reportsOf_append, hnotes, hreports, List.append_nil, step, hdata]
      obtain ⟨done, ws, htracks⟩ := h.tracks e'
      by_cases he : e = e'
      · subst he
        have hmarks : marksOf e [.marked e now] = [now] := by simp [marksOf]
        rw [hmarks, Function.update_self]
        exact ⟨done, ws, htracks.push now hroom⟩
      · have hmarks : marksOf e' [.marked e now] = [] := by simp [marksOf, he]
        rw [hmarks, List.append_nil, Function.update_of_ne (Ne.symm he)]
        exact ⟨done, ws, htracks⟩
  · have hmarks : ∀ e', marksOf e' [.reported e (updateStats (s.s_eventData e))] = [] :=
      fun _ => rfl
    refine ⟨fun e' => ?_, fun e' => ?_⟩
    · rw [marksOf_append, hnotes, hmarks, List.append_nil, step, hlast]
      exact h.clocked e'
    · rw [marksOf_append, reportsOf_append, hnotes, hmarks, List.append_nil, step, hdata]
      obtain ⟨done, ws, htracks⟩ := h.tracks e'
      by_cases he : e = e'
      · subst he
        have hreports : reportsOf e [.reported e (updateStats (s.s_eventData e))] =
            [updateStats (s.s_eventData e)] := by simp [reportsOf]
        rw [hreports, Function.update_self]
        exact ⟨marksOf e ns, _, htracks.clear (h.clocked e).pos⟩
      · have hreports : reportsOf e' [.reported e (updateStats (s.s_eventData e))] = [] := by
          simp [reportsOf, he]
        rw [hreports, List.append_nil, Function.update_of_ne (Ne.symm he)]
        exact ⟨done, ws, htracks⟩

/-- **Run.** -/
theorem inv_run (calls : List (Call Period_whichEvent)) : Inv (ran calls) (notes calls) := by
  induction calls using List.reverseRecOn with
  | nil => exact inv_init
  | append_singleton calls c ih =>
    have hstep := inv_step ih c
    rw [notes, collect_append, collect_cons, collect_nil, List.append_nil, ran, after_append]
    exact hstep

/-- The reported periods and the pending ones, as a run leaves them. -/
theorem run_windows (calls : List (Call Period_whichEvent)) (e : Period_whichEvent) :
    ∃ ws, ws.flatten ++ gapsFrom ((ran calls).s_eventData e).prevInNs
        ((ran calls).s_eventData e).taken = gaps (marksOf e (notes calls)) ∧
      List.Forall₂ Summarizes (reportsOf e (notes calls)) ws := by
  obtain ⟨done, ws, htracks⟩ := (inv_run calls).tracks e
  exact ⟨ws, htracks.pending ((inv_run calls).clocked e).pos, htracks.reports⟩

/-- **Every period is in one report.**  Whatever the threads call and in whichever order the lock
lets them, the periods between an event's stored timestamps, with a 0 before the first, are those
of its reports, in order and each in one of them, and those that the next report would be about. -/
theorem periods_reported_once (calls : List (Call Period_whichEvent)) (e : Period_whichEvent) :
    ∃ ws pending, ws.flatten ++ pending = gaps (marksOf e (notes calls)) ∧
      List.Forall₂ Summarizes (reportsOf e (notes calls)) ws ∧
      pending.length = ((ran calls).s_eventData e).timestampCount ∧
      Summarizes (updateStats ((ran calls).s_eventData e)) pending := by
  obtain ⟨ws, hgaps, hreports⟩ := run_windows calls e
  refine ⟨ws, _, hgaps, hreports, ?_, updateStats_summarizes _⟩
  rw [length_gapsFrom, timestamps_t.length_taken]

/-! ## What the reports say -/

/-- The average lies between the least and the greatest period. -/
theorem Summarizes.ordered {r : Period_statistics_t} {w : List ℤ} (h : Summarizes r w)
    (hnonneg : ∀ g ∈ w, 0 ≤ g) :
    0 ≤ r.minPeriodInNs ∧ r.minPeriodInNs ≤ r.avgPeriodInNs ∧
      r.avgPeriodInNs ≤ r.maxPeriodInNs := by
  rcases eq_or_ne w [] with hnil | hne
  · obtain ⟨hmin, hmax, havg⟩ := h.none hnil
    rw [hmin, hmax, havg]
    exact ⟨le_rfl, le_rfl, le_rfl⟩
  · have hlen : (0 : ℤ) < w.length := by exact_mod_cast List.length_pos_iff.mpr hne
    have hlow : w.length • r.minPeriodInNs ≤ w.sum :=
      List.card_nsmul_le_sum w _ fun g hg => (h.least hne).2 hg
    have hhigh : w.sum ≤ w.length • r.maxPeriodInNs :=
      List.sum_le_card_nsmul w _ fun g hg => (h.greatest hne).2 hg
    rw [nsmul_eq_mul] at hlow hhigh
    refine ⟨hnonneg _ (h.least hne).1, ?_, ?_⟩
    · rw [h.average hne, Int.tdiv_eq_ediv_of_nonneg (List.sum_nonneg hnonneg),
        Int.le_ediv_iff_mul_le hlen]
      linarith
    · rw [h.average hne, Int.tdiv_eq_ediv_of_nonneg (List.sum_nonneg hnonneg)]
      apply Int.ediv_le_of_le_mul hlen
      linarith

/-- A period is 0 only at the very first timestamp. -/
theorem gaps_clocked {last : ℤ} {marks : List ℤ} (h : Clocked last marks) :
    marks = [] ∨ ∃ later, gaps marks = 0 :: later ∧ ∀ g ∈ later, 0 < g := by
  cases marks with
  | nil => exact .inl rfl
  | cons m marks =>
    exact .inr ⟨_, gaps_cons m marks, gapsFrom_pos (List.pairwise_cons.mp h.sorted).2⟩

theorem Clocked.gaps_nonneg {last : ℤ} {marks : List ℤ} (h : Clocked last marks) :
    ∀ g ∈ gaps marks, 0 ≤ g := by
  rcases gaps_clocked h with rfl | ⟨later, hgaps, hlater⟩
  · intro g hg
    cases hg
  · rw [hgaps]
    intro g hg
    rcases List.mem_cons.mp hg with rfl | hg
    · exact le_rfl
    · exact (hlater g hg).le

theorem Clocked.sum_gaps_le {last : ℤ} {marks : List ℤ} (h : Clocked last marks) :
    (gaps marks).sum ≤ last := by
  rw [sum_gaps]
  cases marks with
  | nil => exact h.le_last 0 List.mem_cons_self
  | cons m marks =>
    have hlast := h.le_last ((m :: marks).getLastD 0) (List.getLastD_mem_cons)
    have hpos := h.pos m List.mem_cons_self
    rw [List.headD_cons]
    linarith

theorem Summarizes.pos_iff {r : Period_statistics_t} {w : List ℤ} (h : Summarizes r w) :
    r.numSamples = 0 ↔ w = [] := by
  rw [h.numSamples, List.length_eq_zero_iff]

theorem none_before {rs : List Period_statistics_t} {ws : List (List ℤ)}
    (h : List.Forall₂ Summarizes rs ws) : (∀ r ∈ rs, r.numSamples = 0) ↔ ws.flatten = [] := by
  induction h with
  | nil => simp
  | cons hr _ ih => rw [List.forall_mem_cons, ih, List.flatten_cons, List.append_eq_nil_iff,
      hr.pos_iff]

/-- **What every report says**, the `i`th one about an event: at most `MAX_EVENT_TIMESTAMPS`
periods, none of them negative, the average between the least and the greatest.  Its least period
is 0 when it is about no period or is the first that is about any, and never again. -/
theorem reports_in_order (calls : List (Call Period_whichEvent)) (e : Period_whichEvent)
    (i : Fin (reportsOf e (notes calls)).length) :
    let reports := reportsOf e (notes calls)
    let r := reports.get i
    r.numSamples ≤ MAX_EVENT_TIMESTAMPS ∧ 0 ≤ r.minPeriodInNs ∧
      r.minPeriodInNs ≤ r.avgPeriodInNs ∧ r.avgPeriodInNs ≤ r.maxPeriodInNs ∧
      (r.minPeriodInNs = 0 ↔ r.numSamples = 0 ∨ ∀ r' ∈ reports.take i, r'.numSamples = 0) := by
  obtain ⟨ws, hgaps, hreports⟩ := run_windows calls e
  have hclocked := (inv_run calls).clocked e
  have hi : i.val < ws.length := hreports.length_eq ▸ i.isLt
  have hr : Summarizes ((reportsOf e (notes calls)).get i) ws[i.val] :=
    List.Forall₂.get hreports i.isLt hi
  have hcut : ws.flatten = (ws.take i).flatten ++ (ws[i.val] ++ (ws.drop (i + 1)).flatten) := by
    rw [← List.flatten_cons, ← List.drop_eq_getElem_cons hi, ← List.flatten_append,
      List.take_append_drop]
  have hnonneg : ∀ g ∈ ws[i.val], 0 ≤ g := by
    intro g hg
    apply hclocked.gaps_nonneg g
    rw [← hgaps, hcut]
    simp [hg]
  obtain ⟨hmin, havg, hmax⟩ := hr.ordered hnonneg
  refine ⟨hr.numSamples.trans_le hr.short, hmin, havg, hmax, ?_⟩
  rw [hr.pos_iff, none_before (List.forall₂_take i hreports)]
  rcases eq_or_ne ws[i.val] [] with hnil | hne
  · exact iff_of_true (hr.none hnil).1 (.inl hnil)
  have hleast := (hr.least hne).1
  rcases gaps_clocked hclocked with hmarks | ⟨later, hlater, hpos⟩
  · rw [hmarks, hcut] at hgaps
    simp [gaps, gapsFrom, hne] at hgaps
  rw [or_iff_right hne]
  rw [hlater, hcut, List.append_assoc] at hgaps
  cases hbefore : (ws.take i).flatten with
  | nil =>
    refine iff_of_true ?_ rfl
    rw [hbefore, List.nil_append, List.append_assoc] at hgaps
    obtain ⟨g, w, hw⟩ := List.exists_cons_of_ne_nil hne
    rw [hw, List.cons_append] at hgaps
    have hzero : (0 : ℤ) ∈ ws[i.val] := by
      rw [hw, (List.cons_eq_cons.mp hgaps).1]
      exact List.mem_cons_self
    exact le_antisymm ((hr.least hne).2 hzero) hmin
  | cons g before =>
    refine iff_of_false ?_ (List.cons_ne_nil _ _)
    rw [hbefore, List.cons_append] at hgaps
    apply ne_of_gt
    apply hpos
    rw [← (List.cons_eq_cons.mp hgaps).2]
    exact List.mem_append_right _ (List.mem_append_left _ (List.mem_append_left _ hleast))

/-- **The sums stay within the clock**: after any number of passes of the loop of `updateStats`, at
any moment of any run, the sum and the least and the greatest difference are between 0 and the
clock's last reading.  So where the clock fits a `long long` they do. -/
theorem sums_within_clock (calls : List (Call Period_whichEvent)) (e : Period_whichEvent)
    (k : ℕ) :
    let pData := (ran calls).s_eventData e
    let s := Deltas.passes pData.prevInNs (pData.taken.take k)
    let clock := Set.Icc 0 (ran calls).lastTimeHack
    s.sumDeltasNs ∈ clock ∧ s.minNs ∈ clock ∧ s.maxNs ∈ clock := by
  intro pData s clock
  obtain ⟨ws, hgaps, -⟩ := run_windows calls e
  have hclocked := (inv_run calls).clocked e
  obtain ⟨-, hseen⟩ := passes_seen pData.prevInNs (pData.taken.take k)
  have hcut : ws.flatten ++ (gapsFrom pData.prevInNs (pData.taken.take k) ++
      gapsFrom ((pData.taken.take k).getLastD pData.prevInNs) (pData.taken.drop k)) =
      gaps (marksOf e (notes calls)) := by
    rw [← gapsFrom_append, List.take_append_drop, hgaps]
  have hnonneg := hclocked.gaps_nonneg
  have hspan := hclocked.sum_gaps_le
  rw [← hcut] at hnonneg hspan
  rw [List.sum_append, List.sum_append] at hspan
  rw [List.forall_mem_append, List.forall_mem_append] at hnonneg
  obtain ⟨hdone, hw, hrest⟩ := hnonneg
  have hsum : (gapsFrom pData.prevInNs (pData.taken.take k)).sum ≤ (ran calls).lastTimeHack := by
    have := List.sum_nonneg hdone
    have := List.sum_nonneg hrest
    linarith
  have hmem : ∀ g ∈ gapsFrom pData.prevInNs (pData.taken.take k), g ∈ clock :=
    fun g hg => ⟨hw g hg, (List.single_le_sum hw g hg).trans hsum⟩
  have hzero : 0 ∈ clock := ⟨le_rfl, hclocked.le_last 0 List.mem_cons_self⟩
  rcases eq_or_ne (gapsFrom pData.prevInNs (pData.taken.take k)) [] with hnil | hne
  · obtain ⟨hmin, hmax⟩ := hseen.none hnil
    have hs := hseen.sum
    rw [hnil, List.sum_nil] at hs
    show _ ∈ clock ∧ _ ∈ clock ∧ _ ∈ clock
    rw [hs, hmin, hmax]
    exact ⟨hzero, hzero, hzero⟩
  · refine ⟨?_, hmem _ (hseen.least hne).1, hmem _ (hseen.greatest hne).1⟩
    show _ ∈ clock
    rw [hseen.sum]
    exact ⟨List.sum_nonneg hw, hsum⟩

end

end PeriodTimer
