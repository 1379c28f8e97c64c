import Mathlib

/-!
# Runs of a deterministic labelled system

`step : σ → L → σ` moves a state along a label; a run is a list of labels.  Whatever is not
determined by the state (an input, a scheduler's choice, another thread's move) is in the label.

* `after` — the state a run leads to.
* `collect` — what the steps of a run put out.
* `Throughout` — a condition on each step, read at the state the step is taken in.
* `along` — the states along an infinite run, one for each number of steps.
* `invariant` — what every step under the condition preserves holds after every such run.
* `safe_iff`, `invariant_iff` — where the condition is also necessary, every state of a run is
  safe, or keeps the invariant, exactly when the condition holds throughout.
-/

set_option autoImplicit false

namespace Runs

variable {σ L : Type} (step : σ → L → σ)

/-- The state that the run `tr` leads to. -/
def after (s : σ) (tr : List L) : σ := tr.foldl step s

@[simp] theorem after_nil (s : σ) : after step s [] = s := rfl

@[simp] theorem after_cons (s : σ) (l : L) (tr : List L) :
    after step s (l :: tr) = after step (step s l) tr := rfl

@[simp] theorem after_append (s : σ) (xs ys : List L) :
    after step s (xs ++ ys) = after step (after step s xs) ys := List.foldl_append

/-- The states along an infinite run. -/
def along (s : σ) (ls : ℕ → L) : ℕ → σ
  | 0 => s
  | n + 1 => step (along s ls n) (ls n)

/-- Every step of the run meets `C` in the state it is taken in. -/
def Throughout (C : σ → L → Prop) (s : σ) : List L → Prop
  | [] => True
  | l :: tr => C s l ∧ Throughout C (step s l) tr

/-- What the steps of a run put out, in order. -/
def collect {β : Type} (out : σ → L → List β) (s : σ) : List L → List β
  | [] => []
  | l :: tr => out s l ++ collect out (step s l) tr

@[simp] theorem collect_nil {β : Type} (out : σ → L → List β) (s : σ) :
    collect step out s [] = [] := rfl

@[simp] theorem collect_cons {β : Type} (out : σ → L → List β) (s : σ) (l : L) (tr : List L) :
    collect step out s (l :: tr) = out s l ++ collect step out (step s l) tr := rfl

variable {step} {C : σ → L → Prop}

theorem collect_append {β : Type} (out : σ → L → List β) (s : σ) (xs ys : List L) :
    collect step out s (xs ++ ys) =
      collect step out s xs ++ collect step out (after step s xs) ys := by
  induction xs generalizing s with
  | nil => rfl
  | cons x xs ih =>
    rw [List.cons_append, collect_cons, collect_cons, ih, List.append_assoc, after_cons]

/-- Something a run puts out is put out by one of its steps. -/
theorem collect_split {β : Type} {out : σ → L → List β} {s : σ} {tr : List L} {pre post : List β}
    {e : β} (h : collect step out s tr = pre ++ e :: post) :
    ∃ xs l ys u v, tr = xs ++ l :: ys ∧ out (after step s xs) l = u ++ e :: v ∧
      post = v ++ collect step out (step (after step s xs) l) ys := by
  induction tr generalizing s pre with
  | nil => simp at h
  | cons l tr ih =>
    rw [collect_cons, List.append_eq_append_iff] at h
    rcases h with ⟨pre', rfl, h⟩ | ⟨v, hout, h⟩
    · obtain ⟨xs, l', ys, u, v, rfl, hout, hpost⟩ := ih h
      exact ⟨l :: xs, l', ys, u, v, rfl, hout, hpost⟩
    · cases v with
      | nil =>
        obtain ⟨xs, l', ys, u, v, rfl, hout', hpost⟩ := @ih _ [] h.symm
        exact ⟨l :: xs, l', ys, u, v, rfl, hout', hpost⟩
      | cons e' v =>
        obtain ⟨rfl, rfl⟩ := List.cons_eq_cons.mp h
        exact ⟨[], l, tr, pre, v, rfl, hout, rfl⟩

@[simp] theorem throughout_nil (s : σ) : Throughout step C s [] := trivial

@[simp] theorem throughout_cons (s : σ) (l : L) (tr : List L) :
    Throughout step C s (l :: tr) ↔ C s l ∧ Throughout step C (step s l) tr := Iff.rfl

theorem throughout_append (s : σ) (xs ys : List L) :
    Throughout step C s (xs ++ ys) ↔
      Throughout step C s xs ∧ Throughout step C (after step s xs) ys := by
  induction xs generalizing s with
  | nil => simp
  | cons x xs ih => simp [ih, and_assoc]

theorem Throughout.mono {C' : σ → L → Prop} (hC : ∀ s l, C s l → C' s l) {s : σ} {tr : List L}
    (h : Throughout step C s tr) : Throughout step C' s tr := by
  induction tr generalizing s with
  | nil => trivial
  | cons l tr ih => exact ⟨hC s l h.1, ih h.2⟩

theorem throughout_congr {C' : σ → L → Prop} {tr : List L} (hC : ∀ s, ∀ l ∈ tr, C s l ↔ C' s l)
    (s : σ) : Throughout step C s tr ↔ Throughout step C' s tr := by
  induction tr generalizing s with
  | nil => rfl
  | cons l tr ih =>
    rw [throughout_cons, throughout_cons, hC s l List.mem_cons_self,
      ih fun s l' hl' => hC s l' (List.mem_cons_of_mem _ hl')]

/-- What holds before each step and at the end holds at every moment of the run. -/
theorem Throughout.moments {P : σ → Prop} {s : σ} {tr : List L}
    (h : Throughout step (fun s _ => P s) s tr) (hlast : P (after step s tr)) {pre : List L}
    (hpre : pre <+: tr) : P (after step s pre) := by
  induction tr generalizing s pre with
  | nil =>
    rw [List.prefix_nil.mp hpre]
    exact hlast
  | cons l tr ih =>
    cases pre with
    | nil => exact h.1
    | cons l' pre =>
      obtain ⟨rfl, hpre'⟩ := List.cons_prefix_cons.mp hpre
      exact ih h.2 hlast hpre'

/-- A condition on the labels alone. -/
theorem throughout_iff_forall {P : L → Prop} (s : σ) (tr : List L) :
    Throughout step (fun _ l => P l) s tr ↔ ∀ l ∈ tr, P l := by
  induction tr generalizing s with
  | nil => simp
  | cons l tr ih => rw [throughout_cons, ih, List.forall_mem_cons]

instance [∀ s l, Decidable (C s l)] : (s : σ) → (tr : List L) → Decidable (Throughout step C s tr)
  | _, [] => inferInstanceAs (Decidable True)
  | s, l :: tr =>
    have := instDecidableThroughout (step s l) tr
    inferInstanceAs (Decidable (_ ∧ _))

/-- **Invariant rule**: what every step under the condition preserves holds after the run. -/
theorem invariant {Inv : σ → Prop} (hstep : ∀ s l, Inv s → C s l → Inv (step s l)) {s : σ}
    {tr : List L} (hs : Inv s) (htr : Throughout step C s tr) : Inv (after step s tr) := by
  induction tr generalizing s with
  | nil => exact hs
  | cons l tr ih => exact ih (hstep s l hs htr.1) htr.2

theorem invariant_of_step {Inv : σ → Prop} (hstep : ∀ s l, Inv s → Inv (step s l)) {s : σ}
    (hs : Inv s) (tr : List L) : Inv (after step s tr) := by
  induction tr generalizing s with
  | nil => exact hs
  | cons l tr ih => exact ih (hstep s l hs)

/-- The invariant rule for infinite runs. -/
theorem along_invariant {Inv : σ → Prop} {s : σ} {ls : ℕ → L}
    (hstep : ∀ s l, Inv s → C s l → Inv (step s l)) (hs : Inv s)
    (hls : ∀ n, C (along step s ls n) (ls n)) (n : ℕ) : Inv (along step s ls n) := by
  induction n with
  | zero => exact hs
  | succ n ih => exact hstep _ _ ih (hls n)

/-- **Exact safety rule**: where an invariant implies safety, the condition keeps the invariant and
is also necessary for the next state to be safe, every state of a run is safe exactly when the
condition holds throughout. -/
theorem safe_iff {Inv Safe : σ → Prop} (hsafe : ∀ s, Inv s → Safe s)
    (hstep : ∀ s l, Inv s → C s l → Inv (step s l))
    (hneeded : ∀ s l, Inv s → Safe (step s l) → C s l) {s : σ} {tr : List L} (hs : Inv s) :
    (∀ pre, pre <+: tr → Safe (after step s pre)) ↔ Throughout step C s tr := by
  induction tr generalizing s with
  | nil => simpa using hsafe s hs
  | cons l tr ih =>
    rw [throughout_cons]
    constructor
    · intro h
      have hl : C s l := hneeded s l hs (h [l] ⟨tr, rfl⟩)
      refine ⟨hl, (ih (hstep s l hs hl)).mp fun pre hpre => ?_⟩
      exact h (l :: pre) (List.cons_prefix_cons.mpr ⟨rfl, hpre⟩)
    · rintro ⟨hl, htr⟩ pre hpre
      cases pre with
      | nil => exact hsafe s hs
      | cons x pre =>
        obtain ⟨rfl, hpre'⟩ := List.cons_prefix_cons.mp hpre
        exact (ih (hstep _ x hs hl)).mpr htr pre hpre'

/-- **Exact invariant rule**: where the condition is also necessary, the invariant holds in every
state of a run exactly when the condition holds throughout. -/
theorem invariant_iff {Inv : σ → Prop} (hstep : ∀ s l, Inv s → (Inv (step s l) ↔ C s l)) {s : σ}
    {tr : List L} (hs : Inv s) :
    (∀ pre, pre <+: tr → Inv (after step s pre)) ↔ Throughout step C s tr :=
  safe_iff (fun _ h => h) (fun s l h hl => (hstep s l h).mpr hl)
    (fun s l h h' => (hstep s l h).mp h') hs

end Runs
