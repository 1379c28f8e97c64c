import Cmpt433.Lib.Interaction
import Cmpt433.Lib.Runs

/-!
# Interference with a known effect

The usual case of `Steps`: a handler `h` answers the actions and every move of the surroundings
has one outcome, `move`.  The state is then a function of the labels (`Interfered.after`), so what
a run needs to know of a state can be said with `Runs.after` and `Runs.Throughout`.
-/

set_option autoImplicit false

namespace Interaction

variable {E : Type} {R : E → Type} {σ L α : Type}

/-- The effect of a label. -/
def labelStep (h : (e : E) → σ → R e × σ) (move : σ → L → σ) (s : σ) : Label E R L → σ
  | .act ev => (h ev.1 s).2
  | .env l => move s l

/-- A run against the handler `h`, between the moves of the surroundings. -/
abbrev Interfered (h : (e : E) → σ → R e × σ) (move : σ → L → σ) (p : Prog E R α) (s : σ)
    (tr : List (Label E R L)) (q : Prog E R α) (t : σ) : Prop :=
  Steps (fun s e r t => h e s = (r, t)) (fun s l t => move s l = t) p s tr q t

variable {h : (e : E) → σ → R e × σ} {move : σ → L → σ} {p q : Prog E R α} {s t : σ}
  {tr : List (Label E R L)}

theorem Interfered.after (hrun : Interfered h move p s tr q t) :
    t = Runs.after (labelStep h move) s tr := by
  induction hrun with
  | refl => rfl
  | @act e k q r s t u tr ha _ ih =>
    have ht : labelStep h move s (.act ⟨e, r⟩) = t := congrArg Prod.snd ha
    rw [ih, Runs.after_cons, ht]
  | @env p q l s t u tr he _ ih =>
    have ht : labelStep h move s (.env l) = t := he
    rw [ih, Runs.after_cons, ht]

/-- The completed run `full` from `s` has the program `p` left after its labels `xs`. -/
def Reaches (h : (e : E) → σ → R e × σ) (move : σ → L → σ) (s : σ) (full xs : List (Label E R L))
    (p : Prog E R α) (a : α) (t : σ) : Prop :=
  ∃ ys, full = xs ++ ys ∧
    Interfered h move p (Runs.after (labelStep h move) s xs) ys (.ret a) t

theorem Interfered.reaches {a : α} (hrun : Interfered h move p s tr (.ret a) t) :
    Reaches h move s tr [] p a t := ⟨tr, rfl, hrun⟩

/-- The next action comes after some moves, and is answered in the state they lead to. -/
theorem Reaches.act {e : E} {k : R e → Prog E R α} {a : α} {full xs : List (Label E R L)}
    (hreach : Reaches h move s full xs (.act e k) a t) :
    ∃ (ls : List L) (ps : List (Label E R L)) (r : R e), ps = xs ++ ls.map .env ∧
      r = (h e (Runs.after (labelStep h move) s ps)).1 ∧
      Reaches h move s full (ps ++ [.act ⟨e, r⟩]) (k r) a t := by
  obtain ⟨ys, rfl, hrun⟩ := hreach
  obtain ⟨ls, r, s₁, s₂, ys, rfl, hmoves, hans, hrest⟩ := Steps.first_act hrun
  have hs₁ := Interfered.after hmoves
  rw [← Runs.after_append] at hs₁
  subst hs₁
  refine ⟨ls, _, r, rfl, (congrArg Prod.fst hans).symm, ys, by simp, ?_⟩
  have hs₂ : Runs.after (labelStep h move) s (xs ++ ls.map .env ++ [.act ⟨e, r⟩]) = s₂ := by
    rw [Runs.after_append]
    exact congrArg Prod.snd hans
  exact hs₂ ▸ hrest

theorem Reaches.ret {a b : α} {full xs : List (Label E R L)}
    (hreach : Reaches h move s full xs (.ret b) a t) : a = b := by
  obtain ⟨ys, -, hrun⟩ := hreach
  exact (trace_ret.mp (Steps.trace hrun rfl)).2

theorem runAmid_interfered (h : (e : E) → σ → R e × σ) (move : σ → L → σ) (p : Prog E R α)
    (ms : List (List L)) (s : σ) :
    Interfered h move p s (runAmid h move p ms s).labels (.ret (runAmid h move p ms s).value)
      (runAmid h move p ms s).state :=
  runAmid_steps (fun _ _ => rfl) (fun _ _ => rfl) p ms s

end Interaction
