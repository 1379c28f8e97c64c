import Mathlib

/-!
# Threads that wait for each other's mutex

At a moment of a run, `wants t m` says that thread `t` calls lock on mutex `m`, and `holds t m`
that `t` owns `m`.

* `WaitsFor` — one thread calls lock on what another one owns, or on what it owns itself.
* `DeadlockFree` — no thread locks what it owns, and no cycle of threads wait for each other.
* `deadlockFree_of_order` — it is enough that the mutexes can be ordered so that every thread
  locks one that comes after all it owns.  The order may be another one at another moment.
-/

set_option autoImplicit false

namespace LockOrder

variable {T M : Type} (wants holds : T → M → Prop)

def WaitsFor (t t' : T) : Prop := ∃ m, wants t m ∧ holds t' m

structure DeadlockFree : Prop where
  no_relock : ∀ t m, wants t m → ¬ holds t m
  no_cycle : ∀ t, ¬ Relation.TransGen (WaitsFor wants holds) t t

variable {wants holds}

section

variable {α : Type} [Preorder α] {rank : M → α}
  (horder : ∀ t m m', holds t m → wants t m' → rank m < rank m')

include horder

/-- The mutexes along a chain of waiting threads come one after the other. -/
theorem rank_le_of_chain {t t' : T} (h : Relation.TransGen (WaitsFor wants holds) t t') :
    ∃ m m', wants t m ∧ holds t' m' ∧ rank m ≤ rank m' := by
  induction h with
  | single hedge =>
    obtain ⟨m, hwants, hholds⟩ := hedge
    exact ⟨m, m, hwants, hholds, le_rfl⟩
  | tail _ hedge ih =>
    obtain ⟨m, m', hwants, hholds, hle⟩ := ih
    obtain ⟨m'', hwants', hholds'⟩ := hedge
    exact ⟨m, m'', hwants, hholds', hle.trans (horder _ _ _ hholds hwants').le⟩

/-- **Lock order**: threads that lock the mutexes in some order do not deadlock. -/
theorem deadlockFree_of_order : DeadlockFree wants holds where
  no_relock := fun t m hwants hholds => lt_irrefl _ (horder t m m hholds hwants)
  no_cycle := by
    intro t hcycle
    obtain ⟨m, m', hwants, hholds, hle⟩ := rank_le_of_chain horder hcycle
    exact lt_irrefl _ (hle.trans_lt (horder t m' m hholds hwants))

end

/-- Two threads that each want what the other holds. -/
theorem not_deadlockFree_of_pair {t t' : T} {m m' : M} (hwants : wants t m) (hholds : holds t' m)
    (hwants' : wants t' m') (hholds' : holds t m') : ¬ DeadlockFree wants holds :=
  fun h => h.no_cycle t (.tail (.single ⟨m, hwants, hholds⟩) ⟨m', hwants', hholds'⟩)

end LockOrder
