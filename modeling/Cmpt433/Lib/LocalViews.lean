import Mathlib

/-!
# Threads whose programs are checked one by one

A thread's program is the list of the instructions it has still to run.  A thread has a *view* of
what the threads share; `check v i` is the view after the instruction `i`, or `none` where a thread
with the view `v` must not run it.  An instruction may be replaced by a program that ends with the
same view (a call by its body, a loop by one pass of it and the loop).

* `Accepts` — a program keeps to the check and leads from one view to another.
* `Checked` — so does what every thread has still to run.
* `Checked.head`, `Checked.step`, `Checked.ended` — what is known of the next instruction, and how
  a step keeps it.
-/

set_option autoImplicit false

namespace LocalViews

variable {T V I : Type} {check : V → I → Option V}

/-- From the view `v` the program keeps to the check, and ends with the view `w`. -/
def Accepts (check : V → I → Option V) (v : V) (prog : List I) (w : V) : Prop :=
  prog.foldlM check v = some w

instance [DecidableEq V] (v : V) (prog : List I) (w : V) : Decidable (Accepts check v prog w) :=
  inferInstanceAs (Decidable (_ = _))

variable {v w : V} {i : I} {is rest : List I}

@[simp] theorem accepts_nil : Accepts check v [] w ↔ v = w := Option.some_inj

theorem accepts_cons :
    Accepts check v (i :: is) w ↔ ∃ v', check v i = some v' ∧ Accepts check v' is w := by
  unfold Accepts
  rw [List.foldlM_cons]
  exact Option.bind_eq_some_iff

theorem accepts_append :
    Accepts check v (is ++ rest) w ↔ ∃ v', Accepts check v is v' ∧ Accepts check v' rest w := by
  unfold Accepts
  rw [List.foldlM_append]
  exact Option.bind_eq_some_iff

/-- Every thread's program is accepted, and leads from the thread's view to its last one. -/
def Checked (check : V → I → Option V) (view : T → V) (prog : T → List I) (last : T → V) : Prop :=
  ∀ t, Accepts check (view t) (prog t) (last t)

namespace Checked

variable {view : T → V} {prog : T → List I} {last : T → V} {t : T}

/-- The next instruction is one that the thread may run. -/
theorem head (h : Checked check view prog last) (hprog : prog t = i :: rest) :
    ∃ v', check (view t) i = some v' ∧ Accepts check v' rest (last t) := by
  have ht := h t
  rw [hprog] at ht
  exact accepts_cons.mp ht

theorem ended (h : Checked check view prog last) (hprog : prog t = []) : view t = last t := by
  have ht := h t
  rw [hprog] at ht
  exact accepts_nil.mp ht

/-- **A step keeps the programs checked**: the thread has the view `v` then, and from it the program
that replaces the instruction ends with the view that the check gave. -/
theorem step [DecidableEq T] (h : Checked check view prog last) (hprog : prog t = i :: rest)
    (hnew : ∀ v', check (view t) i = some v' → Accepts check v is v') :
    Checked check (Function.update view t v) (Function.update prog t (is ++ rest)) last := by
  intro t'
  by_cases heq : t' = t
  · subst heq
    obtain ⟨v', hcheck, hrest⟩ := h.head hprog
    rw [Function.update_self, Function.update_self]
    exact accepts_append.mpr ⟨v', hnew v' hcheck, hrest⟩
  · rw [Function.update_of_ne heq, Function.update_of_ne heq]
    exact h t'

/-- A thread that is ended from outside, with the view it has at its end. -/
theorem kill [DecidableEq T] (h : Checked check view prog last) (hview : view t = last t) :
    Checked check view (Function.update prog t []) last := by
  intro t'
  by_cases heq : t' = t
  · subst heq
    rw [Function.update_self]
    exact accepts_nil.mpr hview
  · rw [Function.update_of_ne heq]
    exact h t'

end Checked

end LocalViews
