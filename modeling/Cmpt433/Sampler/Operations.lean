import Cmpt433.Sampler.History

/-!
# Runs of the history: stores and resizes in any order

A run starts as `samplerThread` does and applies any sequence of stores and of calls
`Sampler_setHistorySize`; `none` is the state after an access outside an array.

`resize` leaves `historyCount` alone, and where it takes the array for not full also
`recentIndex`, so a shrink can leave both beyond the new array (`shrink_leaves_array`).
`history_wellFormed_iff` says which shrinks those are.
-/

set_option autoImplicit false

namespace Sampler

open Runs

/-- One operation; `fresh` is what `malloc` leaves in the new array of a resize. -/
inductive Op (V : Type) where
  | store (voltage : V)
  | resize (newSize : Nat) (fresh : Nat → V)

variable {V : Type} [Zero V] [DecidableEq V]

def Op.apply : Op V → History V → Option (History V)
  | .store voltage => Sampler.store voltage
  | .resize newSize fresh => Sampler_setHistorySize newSize fresh

def opStep (h : Option (History V)) (op : Op V) : Option (History V) := h.bind op.apply

/-- The state is well formed and both readers stay inside the array. -/
structure Readable (h : History V) : Prop where
  wellFormed : WellFormed h
  get_N : ∀ n : Nat, (n : Int) ≤ h.historyCount → ∃ ns, Sampler_get_N n h = some (some ns)
  listing : ∃ vs, listing h = some vs

theorem WellFormed.readable {h : History V} (wf : WellFormed h) : Readable h :=
  ⟨wf, fun _ hn => get_N_inside wf hn, listing_inside wf⟩

/-- The condition on an operation, in the state it is applied to: a shrink fits. -/
def OpFits : Option (History V) → Op V → Prop
  | some h, .resize newSize _ => ResizeFits newSize h
  | _, _ => True

theorem op_readable_iff {h : History V} (hr : Readable h) (op : Op V) :
    (∃ h', op.apply h = some h' ∧ Readable h') ↔ OpFits (some h) op := by
  have hiff : (∃ h', op.apply h = some h' ∧ Readable h') ↔
      ∃ h', op.apply h = some h' ∧ WellFormed h' :=
    exists_congr fun h' => and_congr_right fun _ => ⟨Readable.wellFormed, WellFormed.readable⟩
  rw [hiff]
  cases op with
  | store voltage => exact ⟨fun _ => trivial, fun _ => store_wellFormed hr.wellFormed voltage⟩
  | resize newSize fresh => exact resize_wellFormed_iff hr.wellFormed newSize fresh

/-- **The representation invariant over whole runs**: every state reached is well formed, and no
function has left its array, exactly when every shrink of the run fits. -/
theorem history_wellFormed_iff (reading : Nat) (ops : List (Op V)) :
    (∀ pre, pre <+: ops →
        ∃ h, after opStep (some (init reading)) pre = some h ∧ Readable h) ↔
      Throughout opStep OpFits (some (init reading)) ops := by
  refine @invariant_iff _ _ opStep OpFits (fun o => ∃ h, o = some h ∧ Readable h) ?_ _ ops
    ⟨_, rfl, (init_wellFormed reading).readable⟩
  rintro _ op ⟨h, rfl, hr⟩
  exact op_readable_iff hr op

/-- Eight samples in an array of ten, then a shrink to two. -/
def shrinkEarly : List (Op Int) := List.replicate 8 (.store 1) ++ [.resize 2 fun _ => 0]

/-- The array is taken for not full, and the copy of nine elements runs past the new array. -/
theorem shrink_leaves_array :
    ¬ ∀ (reading : Nat) (ops pre : List (Op Int)), pre <+: ops →
      ∃ h, after opStep (some (init reading)) pre = some h ∧ Readable h := by
  intro hall
  obtain ⟨h, hrun, -⟩ := hall 10 shrinkEarly shrinkEarly List.prefix_rfl
  have hnone : after opStep (some (init 10)) shrinkEarly = none := by decide
  rw [hnone] at hrun
  cases hrun

end Sampler
