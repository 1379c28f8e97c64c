import Mathlib

/-!
# Sections of code under one mutex

Threads work on shared data in sections that take many steps.  `go` is one step from a point `l` of
a section, which leads to another point of it or ends it; `whole` is what the section does to the
data when nothing comes in between.

* `Ends` — a section run from one of its points to its end.
* `Atomic` — the data are those of whole sections, one after the other, but for the section in
  progress.
* `Atomic.enter`, `Atomic.go`, `Atomic.finish` — what the steps of the threads do to it, as long as
  no two of them are in a section.
-/

set_option autoImplicit false

namespace CriticalSections

variable {T D L Op : Type}

/-- What threads do in sections, step by step and as a whole. -/
structure Code (D L Op : Type) where
  op : L → Op
  go : L → D → D × Option L
  whole : Op → D → D
  go_op : ∀ l d l', (go l d).2 = some l' → op l' = op l

/-- A section that is at `l` ends with the data `d'`. -/
inductive Ends (go : L → D → D × Option L) : L → D → D → Prop where
  | last {l : L} {d d' : D} (h : go l d = (d', none)) : Ends go l d d'
  | next {l l' : L} {d d' d'' : D} (h : go l d = (d', some l')) (hrest : Ends go l' d' d'') :
      Ends go l d d''

theorem Ends.of_last {go : L → D → D × Option L} {l : L} {d d' d'' : D} (h : Ends go l d d'')
    (hgo : go l d = (d', none)) : d' = d'' := by
  cases h with
  | last h => exact congrArg Prod.fst (hgo.symm.trans h)
  | next h _ => cases hgo.symm.trans h

theorem Ends.of_next {go : L → D → D × Option L} {l l' : L} {d d' d'' : D} (h : Ends go l d d'')
    (hgo : go l d = (d', some l')) : Ends go l' d' d'' := by
  cases h with
  | last h => cases hgo.symm.trans h
  | next h hrest =>
    cases hgo.symm.trans h
    exact hrest

/-- `d` is what the finished sections have made of the data; `inside` says where each thread is in a
section. -/
structure Atomic (c : Code D L Op) (inside : T → Option L) (data d : D) : Prop where
  alone : ∀ t t' l l', inside t = some l → inside t' = some l' → t = t'
  idle : (∀ t, inside t = none) → data = d
  busy : ∀ t l, inside t = some l → Ends c.go l data (c.whole (c.op l) d)

namespace Atomic

variable {c : Code D L Op} {inside inside' : T → Option L} {data data' d : D} {t : T} {l l' : L}

/-- Outside the sections the threads may do as they like. -/
theorem congr (h : Atomic c inside data d) (heq : ∀ t, inside' t = inside t) :
    Atomic c inside' data d := by
  obtain rfl : inside' = inside := funext heq
  exact h

/-- A thread enters a section while nobody is in one. -/
theorem enter (h : Atomic c inside data d) (hnone : ∀ t', inside t' = none)
    (hothers : ∀ t', t' ≠ t → inside' t' = inside t') (hin : inside' t = some l)
    (hends : Ends c.go l d (c.whole (c.op l) d)) : Atomic c inside' data d := by
  obtain rfl := h.idle hnone
  have honly : ∀ t' l', inside' t' = some l' → t' = t := by
    intro t' l' h'
    by_contra hne
    rw [hothers t' hne, hnone] at h'
    cases h'
  refine ⟨fun t₁ t₂ l₁ l₂ h₁ h₂ => (honly t₁ l₁ h₁).trans (honly t₂ l₂ h₂).symm,
    fun _ => rfl, fun t' l' h' => ?_⟩
  obtain rfl := honly t' l' h'
  obtain rfl := Option.some.inj (hin.symm.trans h')
  exact hends

/-- It takes a step that does not end its section. -/
theorem go (h : Atomic c inside data d) (hothers : ∀ t', t' ≠ t → inside' t' = inside t')
    (hin : inside t = some l) (hgo : c.go l data = (data', some l')) (hin' : inside' t = some l') :
    Atomic c inside' data' d := by
  have honly : ∀ t' l'', inside' t' = some l'' → t' = t := by
    intro t' l'' h'
    by_contra hne
    rw [hothers t' hne] at h'
    exact hne (h.alone t' t l'' l h' hin)
  refine ⟨fun t₁ t₂ l₁ l₂ h₁ h₂ => (honly t₁ l₁ h₁).trans (honly t₂ l₂ h₂).symm,
    fun hnone => ?_, fun t' l'' h' => ?_⟩
  · rw [hnone] at hin'
    cases hin'
  · obtain rfl := honly t' l'' h'
    obtain rfl := Option.some.inj (hin'.symm.trans h')
    rw [c.go_op l data l' (by rw [hgo])]
    exact (h.busy _ l hin).of_next hgo

/-- **The step that ends a section adds the whole of it.** -/
theorem finish (h : Atomic c inside data d) (hothers : ∀ t', t' ≠ t → inside' t' = inside t')
    (hin : inside t = some l) (hgo : c.go l data = (data', none)) (hin' : inside' t = none) :
    Atomic c inside' data' (c.whole (c.op l) d) := by
  have hnone : ∀ t', inside' t' = none := by
    intro t'
    by_cases heq : t' = t
    · exact heq ▸ hin'
    · rw [hothers t' heq]
      cases hsome : inside t' with
      | none => rfl
      | some l' => exact absurd (h.alone t' t l' l hsome hin) heq
  refine ⟨fun t₁ t₂ l₁ l₂ h₁ _ => ?_, fun _ => (h.busy t l hin).of_last hgo, fun t' l' h' => ?_⟩
  · rw [hnone] at h₁
    cases h₁
  · rw [hnone] at h'
    cases h'

end Atomic

end CriticalSections
