import Cmpt433.Sampler.Snapshot
import Cmpt433.Sampler.Stores

/-!
# The two query paths (`work/as2/sampler.c`, `work/as2/udpListen.c`)

`history` sends the array as it lies in memory, `get N` with the number of samples a window of it
that ends one slot too far.

* `run_history`, `run_get` — what a request sends when nothing else runs.
* `paths_agree_iff` — when the two lists are the same.
-/

set_option autoImplicit false

namespace Udp

open Interaction CheckedArray Ring Sampler

section

variable {V : Type} [Zero V]

/-! ## Requests that nothing interrupts -/

omit [Zero V] in
theorem run_answer {α : Type} (p : Thread V α) (m : Mem V) :
    Oracle (fun e => (answer e m).1) p (run answer p m).events (run answer p m).value := by
  refine run_oracle (fun e s e' => ?_) p m
  cases e <;> cases e' <;> rfl

/-- `history` sends the first `historyCount` elements of the array. -/
theorem run_history {m : Mem V} (wf : WellFormed m.hist) :
    let o := run answer (handleRequest .history) m
    o.value = .sent ∧
      messages o.events = (rows 0 (m.hist.recent.take m.hist.historyCount.toNat)).map .numbers := by
  obtain ⟨evs, ho, hmessages⟩ := historySend_oracle wf
  have hsteps : Oracle (fun e => (answer e m).1) (handleRequest .history)
      (⟨.lock, ()⟩ :: ⟨.recent, m.block⟩ :: ⟨.historyCount, m.hist.historyCount⟩ ::
        ⟨.unlock, ()⟩ :: evs) .sent := .act (.act (.act (.act ho)))
  obtain ⟨hevs, hvalue⟩ := (run_answer _ m).unique hsteps
  exact ⟨hvalue, by rw [hevs]; exact hmessages⟩

omit [Zero V] in
/-- A number that passes the check: the number of samples is loaded twice. -/
theorem get_accepted {m : Mem V} {n : Int} (hn : n ≤ m.hist.historyCount)
    {evs : List (Event (Call V) Call.Answer)} {d : Done}
    (hchecked : Oracle (fun e => (answer e m).1) (getChecked n m.hist.historyCount) evs d) :
    Oracle (fun e => (answer e m).1) (handleRequest (.get n))
      (⟨.historyCount, m.hist.historyCount⟩ :: ⟨.historyCount, m.hist.historyCount⟩ :: evs) d := by
  rw [handle_get]
  refine .act ?_
  change Oracle _ (if m.hist.historyCount < n then _ else _) _ _
  rw [if_neg (by omega)]
  exact .act hchecked

/-- `get N` sends what `Sampler_get_N` returns. -/
theorem run_get {m : Mem V} (wf : WellFormed m.hist) {n : Nat}
    (hn : (n : Int) ≤ m.hist.historyCount) {ns : List V}
    (hns : Sampler.Sampler_get_N n m.hist = some (some ns)) :
    let o := run answer (handleRequest (.get n)) m
    o.value = .sent ∧ messages o.events = (rows 0 ns).map .numbers := by
  obtain ⟨evs, ho, hmessages⟩ := getSend_content wf hn hns
  have hchecked : Oracle (fun e => (answer e m).1) (getChecked n m.hist.historyCount)
      (⟨.arraySize, m.hist.arraySize⟩ :: ⟨.recentIndex, m.hist.recentIndex⟩ :: evs) .sent := by
    rw [getChecked_eq (by omega) hn]
    exact .act (.act ho)
  obtain ⟨hevs, hvalue⟩ := (run_answer _ m).unique (get_accepted hn hchecked)
  exact ⟨hvalue, by rw [hevs]; exact hmessages⟩

omit [Zero V] in
/-- A number above the number of samples is refused; nothing but that number is loaded. -/
theorem run_refused {m : Mem V} {n : Int} (hn : m.hist.historyCount < n) :
    let o := run answer (handleRequest (.get n)) m
    o.value = .refused ∧ o.events = [⟨.historyCount, m.hist.historyCount⟩,
      ⟨.sendto (.text s!"Please enter a number between 1 and {m.hist.historyCount}\n"), ()⟩] := by
  have hsteps : Oracle (fun e => (answer e m).1) (handleRequest (.get n))
      [⟨.historyCount, m.hist.historyCount⟩,
        ⟨.sendto (.text s!"Please enter a number between 1 and {m.hist.historyCount}\n"), ()⟩]
      .refused := by
    rw [handle_get]
    refine .act ?_
    change Oracle _ (if m.hist.historyCount < n then _ else _) _ _
    rw [if_pos hn]
    exact .act (.ret _)
  exact ((run_answer _ m).unique hsteps).symm

omit [Zero V] in
/-- A negative number passes the check. -/
theorem run_negative {m : Mem V} (wf : WellFormed m.hist) {n : Int} (hn : n < 0) :
    let o := run answer (handleRequest (.get n)) m
    o.value = .fault ∧ messages o.events = [] := by
  have hcount := wf.count_nonneg
  have hchecked : Oracle (fun e => (answer e m).1) (getChecked n m.hist.historyCount) [] .fault := by
    rw [getChecked, get_N_from, if_neg (by omega), if_pos hn]
    exact .ret _
  obtain ⟨hevs, hvalue⟩ := (run_answer _ m).unique (get_accepted (by omega) hchecked)
  exact ⟨hvalue, by rw [hevs]; rfl⟩

/-- How a request ends, and the list it sends. -/
def sent (req : Request) (m : Mem V) : Done × List V :=
  let o := run answer (handleRequest req) m
  (o.value, numbers o.events)

theorem sent_history {m : Mem V} (wf : WellFormed m.hist) :
    sent .history m = (.sent, m.hist.recent.take m.hist.historyCount.toNat) := by
  obtain ⟨hvalue, hmessages⟩ := run_history wf
  rw [sent, hvalue, numbers_of_rows hmessages]

theorem sent_get {m : Mem V} (wf : WellFormed m.hist) {n : Nat}
    (hn : (n : Int) ≤ m.hist.historyCount) {ns : List V}
    (hns : Sampler.Sampler_get_N n m.hist = some (some ns)) : sent (.get n) m = (.sent, ns) := by
  obtain ⟨hvalue, hmessages⟩ := run_get wf hn hns
  rw [sent, hvalue, numbers_of_rows hmessages]

/-! ## All samples on both paths -/

/-- The window of `Sampler_get_N` in the ring that is one slot further. -/
theorem get_N_rotate {h : History V} (wf : WellFormed h) {n : Nat}
    (hn : (n : Int) ≤ h.historyCount) :
    Sampler.Sampler_get_N n h = some (some ((h.ring.rotate 1).drop (h.ring.length - n))) := by
  have hlen := ring_length wf
  have hpos := wf.size_pos
  have hcount := wf.count_le
  obtain ⟨x, xs, hring⟩ := List.exists_cons_of_length_pos (l := h.ring) (by omega)
  rw [hring, List.length_cons] at hlen ⊢
  rw [List.rotate_cons_succ, List.rotate_zero]
  rcases Nat.eq_zero_or_pos n with rfl | hone
  · rw [List.drop_of_length_le (by simp)]
    rw [Sampler.Sampler_get_N, if_neg (by omega), if_neg (by omega)]
    rfl
  · rw [get_N_ring wf hring hone hn, hring, List.rtake, List.length_cons, List.tail_drop,
      List.drop_succ_cons, List.drop_append_of_le_length (by omega)]

/-- The samples look the same from the next slot on: fewer samples than slots, all of them 0, or a
full array whose last samples do not change when they are moved around the ring. -/
def Recurs (A : Nat) (vs : List V) : Prop :=
  if vs.length < A then ∀ v ∈ vs, v = 0
  else (vs.rtake A).rotate (vs.length + 1 + (vs.length - A) % 2) = vs.rtake A

instance [DecidableEq V] (A : Nat) (vs : List V) : Decidable (Recurs A vs) :=
  inferInstanceAs (Decidable (if vs.length < A then ∀ v ∈ vs, v = 0
    else (vs.rtake A).rotate (vs.length + 1 + (vs.length - A) % 2) = vs.rtake A))

/-- **The two paths agree exactly where the samples recur.** -/
theorem paths_agree_iff {A : Nat} (hA : 1 ≤ A) {vs : List V} {m : Mem V}
    (hs : stores vs (init A) = some m.hist) :
    sent (.get (Sampler_getNumSamplesInHistory m.hist)) m = sent .history m ↔ Recurs A vs := by
  have hf := filled_of_stores hA hs
  have wf := hf.wellFormed
  obtain ⟨hlen, hring⟩ := hf.recent_rotate
  have hcount : m.hist.historyCount = countAfter A vs.length := hf.count
  have hringlen : m.hist.ring.length = A := by rw [hf.ring, ringAfter]; simp
  rw [Sampler_getNumSamplesInHistory, hcount,
    sent_get wf hcount.ge (get_N_rotate wf hcount.ge), sent_history wf, hcount, hringlen, hf.ring,
    Int.toNat_natCast, Prod.mk.injEq, eq_self, true_and, Recurs]
  by_cases hk : vs.length < A
  · -- nothing was overwritten: the samples and then zeros
    have hrecent : m.hist.recent = vs ++ List.replicate (A - vs.length) 0 := by
      refine List.rotate_injective vs.length ?_
      change List.rotate _ _ = List.rotate _ _
      rw [hring, ringAfter_short hk.le, List.rotate_append_length_eq]
    obtain ⟨d, hd⟩ : ∃ d, A - vs.length = d + 1 := ⟨A - vs.length - 1, by omega⟩
    rw [if_pos hk, countAfter_le hk.le, hrecent, List.take_left' rfl, ringAfter_short hk.le, hd,
      List.replicate_succ, List.cons_append, List.rotate_cons_succ, List.rotate_zero,
      List.append_assoc, ← tail_append_eq_iff, ← List.drop_one,
      List.drop_append, List.drop_of_length_le (by simp)]
    simp
  · have hk : A ≤ vs.length := by omega
    rw [if_neg (by omega), ← ringAfter_long hk, ← hring]
    rw [rotate_rotate_eq_iff, List.rotate_rotate, countAfter]
    rcases Nat.mod_two_eq_zero_or_one (vs.length - A) with heven | hodd
    · have hall : (if vs.length ≤ A then vs.length
          else if (vs.length - A) % 2 = 1 then A - 1 else A) = m.hist.recent.length := by
        split_ifs <;> omega
      rw [hall, heven, List.take_length, hlen, Nat.sub_self, List.drop_zero, Nat.add_zero]
    · have hall : (if vs.length ≤ A then vs.length
          else if (vs.length - A) % 2 = 1 then A - 1 else A) = m.hist.recent.length - 1 := by
        split_ifs <;> omega
      have hone : A - (m.hist.recent.length - 1) = 1 := by omega
      rw [hall, hodd, hone, List.drop_one, ← List.dropLast_eq_take, eq_comm,
        dropLast_eq_tail_iff (List.rotate_perm _ _).symm, List.rotate_rotate, eq_comm]

/-- Five samples in three slots: the window that is one too far wraps around to the array itself. -/
theorem paths_agree_five :
    let m : Mem Int := ⟨⟨[4, 5, 3], 3, 2, 3⟩, 0, false⟩
    sent (.get (Sampler_getNumSamplesInHistory m.hist)) m = sent .history m :=
  (@paths_agree_iff Int _ 3 (by decide) [1, 2, 3, 4, 5] _ rfl).mpr (by decide)

/-- One sample in two slots: `history` sends it, `get 1` sends the slot after it. -/
theorem paths_differ : ¬ ∀ (A : Nat) (vs : List Int) (m : Mem Int), 1 ≤ A →
    stores vs (init A) = some m.hist →
      sent (.get (Sampler_getNumSamplesInHistory m.hist)) m = sent .history m := by
  intro hall
  have h := hall 2 [7] ⟨⟨[7, 0], 2, 1, 1⟩, 0, false⟩ (by decide) (by decide)
  exact absurd h (by decide)

end

end Udp
