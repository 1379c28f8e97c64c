import Cmpt433.Lib.Runs

/-!
# What a fair run comes to

In a fair run every thread is scheduled again and again; a thread that has to wait then does
nothing.  `Progress` is a rule for the end of such runs: a measure never grows, one thread is the
*helpful* one, whose step makes it fall, and as long as the measure stays the helpful thread is the
same.

* `Fair` — every thread is scheduled again.
* `Progress.reaches` — a fair run comes to its goal.
-/

set_option autoImplicit false

namespace Fairness

open Runs

variable {σ L T : Type}

/-- After every moment every thread takes another step; `who l` is the thread of a label. -/
def Fair (who : L → Option T) (ls : ℕ → L) : Prop := ∀ t n, ∃ m, n ≤ m ∧ who (ls m) = some t

structure Progress (step : σ → L → σ) (who : L → Option T) (Inv Goal : σ → Prop) (size : σ → ℕ)
    (helpful : σ → T) : Prop where
  keeps : ∀ s l, Inv s → Inv (step s l)
  falls : ∀ s l, Inv s → ¬ Goal s → who l = some (helpful s) → size (step s l) < size s
  stays : ∀ s l, Inv s → ¬ Goal s →
    size (step s l) < size s ∨ size (step s l) = size s ∧ helpful (step s l) = helpful s

namespace Progress

variable {step : σ → L → σ} {who : L → Option T} {Inv Goal : σ → Prop} {size : σ → ℕ}
  {helpful : σ → T} {s : σ} {ls : ℕ → L}

/-- Until the measure falls or the goal is reached, the helpful thread stays the same. -/
theorem waits (h : Progress step who Inv Goal size helpful) {n : ℕ}
    (hn : Inv (along step s ls n)) (d : ℕ) :
    (∃ m, n ≤ m ∧ Inv (along step s ls m) ∧
        (Goal (along step s ls m) ∨ size (along step s ls m) < size (along step s ls n))) ∨
      Inv (along step s ls (n + d)) ∧ ¬ Goal (along step s ls (n + d)) ∧
        size (along step s ls (n + d)) = size (along step s ls n) ∧
        helpful (along step s ls (n + d)) = helpful (along step s ls n) := by
  induction d with
  | zero =>
    by_cases hgoal : Goal (along step s ls n)
    · exact .inl ⟨n, le_rfl, hn, .inl hgoal⟩
    · exact .inr ⟨hn, hgoal, rfl, rfl⟩
  | succ d ih =>
    rcases ih with hdone | ⟨hinv, hgoal, hsize, hhelpful⟩
    · exact .inl hdone
    · have hinv' : Inv (along step s ls (n + d + 1)) := h.keeps _ _ hinv
      by_cases hgoal' : Goal (along step s ls (n + d + 1))
      · exact .inl ⟨n + d + 1, by omega, hinv', .inl hgoal'⟩
      · rcases h.stays _ (ls (n + d)) hinv hgoal with hfalls | ⟨hsame, hstays⟩
        · exact .inl ⟨n + d + 1, by omega, hinv', .inr (hsize ▸ hfalls)⟩
        · exact .inr ⟨hinv', hgoal', hsame.trans hsize, hstays.trans hhelpful⟩

/-- **A fair run comes to its goal.** -/
theorem reaches (h : Progress step who Inv Goal size helpful) (hfair : Fair who ls) {n : ℕ}
    (hn : Inv (along step s ls n)) : ∃ m, n ≤ m ∧ Goal (along step s ls m) := by
  obtain ⟨b, hb⟩ : ∃ b, size (along step s ls n) = b := ⟨_, rfl⟩
  induction b using Nat.strong_induction_on generalizing n with
  | _ b ih =>
    have hfurther : (∃ m, n ≤ m ∧ Inv (along step s ls m) ∧
        (Goal (along step s ls m) ∨ size (along step s ls m) < b)) →
        ∃ m, n ≤ m ∧ Goal (along step s ls m) := by
      rintro ⟨m, hm, hinv, hgoal | hfalls⟩
      · exact ⟨m, hm, hgoal⟩
      · obtain ⟨m', hm', hgoal⟩ := ih _ hfalls hinv rfl
        exact ⟨m', hm.trans hm', hgoal⟩
    -- the helpful thread takes its step sooner or later
    obtain ⟨m, hm, hwho⟩ := hfair (helpful (along step s ls n)) n
    obtain ⟨d, rfl⟩ := Nat.exists_eq_add_of_le hm
    rw [← hb] at hfurther
    rcases h.waits hn d with hdone | ⟨hinv, hgoal, hsize, hhelpful⟩
    · exact hfurther hdone
    · have hfalls := h.falls _ (ls (n + d)) hinv hgoal (hhelpful ▸ hwho)
      exact hfurther ⟨n + d + 1, by omega, h.keeps _ _ hinv, .inr (hsize ▸ hfalls)⟩

end Progress

end Fairness
