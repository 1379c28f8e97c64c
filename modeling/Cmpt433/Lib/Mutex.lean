import Mathlib

/-!
# POSIX mutexes

A mutex knows its owner.  Destroying one that is held is an error and does nothing; a destroyed
mutex excludes nobody.

* `Owned` — the owner of a mutex is the thread whose flag says that it is between lock and unlock.
* `Owned.lock`, `Owned.unlock`, `Owned.destroy` — each of the calls keeps it so.
* `Owned.alone` — a mutex that is not destroyed has one owner at most.
-/

set_option autoImplicit false

namespace Pthread

variable {T : Type}

structure Mutex (T : Type) where
  owner : Option T
  destroyed : Bool

/-- `none` while the thread has to wait. -/
def pthread_mutex_lock (t : T) (m : Mutex T) : Option (Mutex T) :=
  if m.destroyed then some m
  else if m.owner = none then some { m with owner := some t }
  else none

def pthread_mutex_unlock [DecidableEq T] (t : T) (m : Mutex T) : Mutex T :=
  if m.owner = some t then { m with owner := none } else m

def pthread_mutex_destroy (m : Mutex T) : Mutex T :=
  if m.owner = none then { m with destroyed := true } else m

/-- `flag t` says that `t` is between lock and unlock. -/
structure Owned (flag : T → Bool) (m : Mutex T) : Prop where
  owner : m.destroyed = false → ∀ t, flag t = true ↔ m.owner = some t
  idle : m.destroyed = true → m.owner = none

variable {flag : T → Bool} {m m' : Mutex T} {t : T}

theorem lock_destroyed (h : pthread_mutex_lock t m = some m') : m'.destroyed = m.destroyed := by
  unfold pthread_mutex_lock at h
  split at h
  · cases h
    rfl
  · split at h <;> cases h
    rfl

theorem unlock_destroyed [DecidableEq T] (t : T) (m : Mutex T) :
    (pthread_mutex_unlock t m).destroyed = m.destroyed := by
  unfold pthread_mutex_unlock
  split <;> rfl

namespace Owned

theorem alone {t' : T} (h : Owned flag m) (hkept : m.destroyed = false) (ht : flag t = true)
    (ht' : flag t' = true) : t = t' :=
  Option.some.inj (((h.owner hkept t).mp ht).symm.trans ((h.owner hkept t').mp ht'))

/-- An owner is between lock and unlock. -/
theorem flag_of_owner (h : Owned flag m) (ht : m.owner = some t) : flag t = true := by
  cases hdestroyed : m.destroyed with
  | false => exact (h.owner hdestroyed t).mpr ht
  | true => cases (h.idle hdestroyed).symm.trans ht

theorem destroy (h : Owned flag m) : Owned flag (pthread_mutex_destroy m) := by
  unfold pthread_mutex_destroy
  split
  · rename_i howner
    exact ⟨nofun, fun _ => howner⟩
  · exact h

variable [DecidableEq T]

theorem lock (h : Owned flag m) (hlock : pthread_mutex_lock t m = some m') :
    Owned (Function.update flag t true) m' := by
  unfold pthread_mutex_lock at hlock
  split at hlock
  · rename_i hdestroyed
    cases hlock
    exact ⟨fun hkept => absurd hdestroyed (by rw [hkept]; decide), h.idle⟩
  · rename_i hkept
    split at hlock <;> cases hlock
    rename_i howner
    refine ⟨fun hkept t' => ?_, fun hdestroyed => absurd hdestroyed hkept⟩
    by_cases heq : t' = t
    · subst heq
      rw [Function.update_self]
      exact iff_of_true rfl rfl
    · rw [Function.update_of_ne heq, h.owner hkept, howner]
      exact iff_of_false nofun fun hsome => heq (Option.some.inj hsome).symm

theorem unlock (h : Owned flag m) (hflag : flag t = true) :
    Owned (Function.update flag t false) (pthread_mutex_unlock t m) := by
  refine ⟨fun hkept t' => ?_, fun hdestroyed => ?_⟩
  · rw [unlock_destroyed] at hkept
    have howner := (h.owner hkept t).mp hflag
    unfold pthread_mutex_unlock
    rw [if_pos howner]
    by_cases heq : t' = t
    · subst heq
      rw [Function.update_self]
      exact iff_of_false nofun nofun
    · rw [Function.update_of_ne heq, h.owner hkept, howner]
      exact iff_of_false (fun hsome => heq (Option.some.inj hsome).symm) nofun
  · rw [unlock_destroyed] at hdestroyed
    have howner := h.idle hdestroyed
    unfold pthread_mutex_unlock
    rw [if_neg (by rw [howner]; nofun)]
    exact howner

end Owned

end Pthread
