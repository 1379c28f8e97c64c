import Mathlib

/-!
# Heap blocks: what is freed, and what is used after that

A record of what a run does to its heap blocks.  `Safe` says that no block is freed twice and none
used after it was freed.

* `safe_free_iff` — what keeps a record safe.
* `use_eq` — a use of a block that is not freed leaves no trace.
-/

set_option autoImplicit false

/-- The blocks freed so far, and the uses of freed blocks. -/
structure Blocks (T B : Type) where
  freed : List B
  stale : List (T × B)
  deriving DecidableEq

namespace Blocks

variable {T B : Type}

def empty : Blocks T B := ⟨[], []⟩

def free (b : B) (h : Blocks T B) : Blocks T B := { h with freed := b :: h.freed }

def use [DecidableEq B] (t : T) (b : B) (h : Blocks T B) : Blocks T B :=
  if b ∈ h.freed then { h with stale := (t, b) :: h.stale } else h

structure Safe (h : Blocks T B) : Prop where
  freed_once : h.freed.Nodup
  none_stale : h.stale = []

theorem empty_safe : (empty : Blocks T B).Safe := ⟨List.nodup_nil, rfl⟩

theorem safe_free_iff {b : B} {h : Blocks T B} : (h.free b).Safe ↔ h.Safe ∧ b ∉ h.freed := by
  constructor
  · rintro ⟨honce, hstale⟩
    obtain ⟨hb, honce⟩ := List.nodup_cons.mp honce
    exact ⟨⟨honce, hstale⟩, hb⟩
  · rintro ⟨⟨honce, hstale⟩, hb⟩
    exact ⟨List.nodup_cons.mpr ⟨hb, honce⟩, hstale⟩

theorem use_eq [DecidableEq B] {t : T} {b : B} {h : Blocks T B} (hb : b ∉ h.freed) :
    h.use t b = h := if_neg hb

end Blocks
