import Mathlib

/-!
# Programs that interact with their surroundings

A program is a tree of *actions*: an action `e : E` is handed to the surroundings, which
answer with a value of `R e`, and the program goes on from that answer.  A program says
nothing about the answers; three readings supply them.

* `Trace` — every answer is possible.  What holds of all traces holds against every device,
  every scheduler and every other thread.
* `run` — a deterministic handler over a state answers each action (one thread, nobody else).
* `Steps` — a labelled small-step relation in which the surroundings may also move on their
  own between any two actions (interference); `runAmid` computes such a run from a schedule.

Principal results: `trace_bind` and `run_bind` (traces and runs compose), `Trace.agree` (a program
is determined by the answers it gets), `run_trace`, `Steps.trace` (both runs are traces).
-/

set_option autoImplicit false

namespace Interaction

/-- A program over the actions `E`, answered by `R`, returning a value of `α`. -/
inductive Prog (E : Type) (R : E → Type) (α : Type) : Type where
  | ret (a : α) : Prog E R α
  | act (e : E) (k : R e → Prog E R α) : Prog E R α

/-- One performed action together with its answer. -/
abbrev Event (E : Type) (R : E → Type) := (e : E) × R e

variable {E : Type} {R : E → Type} {α β γ : Type}

namespace Prog

def bind : Prog E R α → (α → Prog E R β) → Prog E R β
  | .ret a, f => f a
  | .act e k, f => .act e fun r => (k r).bind f

instance : Monad (Prog E R) where
  pure := .ret
  bind := bind

@[simp] theorem ret_bind (a : α) (f : α → Prog E R β) : (.ret a : Prog E R α) >>= f = f a := rfl

@[simp] theorem act_bind (e : E) (k : R e → Prog E R α) (f : α → Prog E R β) :
    (.act e k : Prog E R α) >>= f = .act e fun r => k r >>= f := rfl

theorem bind_assoc (p : Prog E R α) (f : α → Prog E R β) (g : β → Prog E R γ) :
    p >>= f >>= g = p >>= fun a => f a >>= g := by
  induction p with
  | ret a => rfl
  | act e k ih =>
    simp only [act_bind]
    congr 1
    funext r
    exact ih r

end Prog

/-! ## Traces: every answer is possible -/

/-- `Trace p evs a`: some surroundings drive `p` through exactly `evs` to the result `a`. -/
inductive Trace : Prog E R α → List (Event E R) → α → Prop where
  | ret (a : α) : Trace (.ret a) [] a
  | act {e : E} {k : R e → Prog E R α} {r : R e} {evs : List (Event E R)} {a : α} :
      Trace (k r) evs a → Trace (.act e k) (⟨e, r⟩ :: evs) a

@[simp] theorem trace_ret {a b : α} {evs : List (Event E R)} :
    Trace (.ret a) evs b ↔ evs = [] ∧ b = a := by
  constructor
  · intro h; cases h; exact ⟨rfl, rfl⟩
  · rintro ⟨rfl, rfl⟩; exact .ret _

theorem trace_act {e : E} {k : R e → Prog E R α} {evs : List (Event E R)} {a : α} :
    Trace (.act e k) evs a ↔ ∃ r evs', evs = ⟨e, r⟩ :: evs' ∧ Trace (k r) evs' a := by
  constructor
  · intro h; cases h with
    | act h => exact ⟨_, _, rfl, h⟩
  · rintro ⟨r, evs', rfl, h⟩; exact .act h

theorem Trace.bind {p : Prog E R α} {f : α → Prog E R β} {xs ys : List (Event E R)} {a : α}
    {b : β} (h : Trace p xs a) (hf : Trace (f a) ys b) : Trace (p >>= f) (xs ++ ys) b := by
  induction h with
  | ret a => exact hf
  | act _ ih => exact .act (ih hf)

/-- **Traces compose**: a trace of `p >>= f` is a trace of `p` followed by one of `f`. -/
theorem trace_bind {p : Prog E R α} {f : α → Prog E R β} {evs : List (Event E R)} {b : β} :
    Trace (p >>= f) evs b ↔
      ∃ xs ys a, evs = xs ++ ys ∧ Trace p xs a ∧ Trace (f a) ys b := by
  constructor
  · induction p generalizing evs with
    | ret a => intro h; exact ⟨[], evs, a, rfl, .ret a, h⟩
    | act e k ih =>
      intro h
      obtain ⟨r, evs', rfl, hk⟩ := trace_act.mp h
      obtain ⟨xs, ys, a, rfl, hx, hy⟩ := ih r hk
      exact ⟨_ :: xs, ys, a, rfl, .act hx, hy⟩
  · rintro ⟨xs, ys, a, rfl, hx, hy⟩
    exact hx.bind hy

/-- **A program is determined by its answers**: two traces are equal, or they agree up to one
action that was answered differently. -/
theorem Trace.agree {p : Prog E R α} {xs ys : List (Event E R)} {a b : α}
    (hx : Trace p xs a) (hy : Trace p ys b) :
    (xs = ys ∧ a = b) ∨
      ∃ pre e r r' xs' ys', r ≠ r' ∧ xs = pre ++ ⟨e, r⟩ :: xs' ∧ ys = pre ++ ⟨e, r'⟩ :: ys' := by
  induction hx generalizing ys b with
  | ret a =>
    obtain ⟨rfl, rfl⟩ := trace_ret.mp hy
    exact .inl ⟨rfl, rfl⟩
  | @act e k r evs a _ ih =>
    obtain ⟨r', ys', rfl, hk⟩ := trace_act.mp hy
    by_cases hr : r = r'
    · subst hr
      rcases ih hk with ⟨rfl, rfl⟩ | ⟨pre, e', s, s', xs', ys'', hne, rfl, rfl⟩
      · exact .inl ⟨rfl, rfl⟩
      · exact .inr ⟨_ :: pre, e', s, s', xs', ys'', hne, rfl, rfl⟩
    · exact .inr ⟨[], e, r, r', evs, ys', hr, rfl, rfl⟩

/-- A trace all of whose answers are those of the fixed oracle `f`. -/
def Oracle (f : (e : E) → R e) (p : Prog E R α) (evs : List (Event E R)) (a : α) : Prop :=
  Trace p evs a ∧ ∀ ev ∈ evs, ev.2 = f ev.1

namespace Oracle

variable {f : (e : E) → R e}

theorem ret (a : α) : Oracle f (.ret a) [] a := ⟨.ret a, by simp⟩

theorem act {e : E} {k : R e → Prog E R α} {evs : List (Event E R)} {a : α}
    (h : Oracle f (k (f e)) evs a) : Oracle f (.act e k) (⟨e, f e⟩ :: evs) a :=
  ⟨.act h.1, fun ev hev => by
    rcases List.mem_cons.mp hev with rfl | hev
    · rfl
    · exact h.2 ev hev⟩

theorem bind {p : Prog E R α} {k : α → Prog E R β} {xs ys : List (Event E R)} {a : α} {b : β}
    (h : Oracle f p xs a) (hk : Oracle f (k a) ys b) : Oracle f (p >>= k) (xs ++ ys) b :=
  ⟨h.1.bind hk.1, fun ev hev => (List.mem_append.mp hev).elim (h.2 ev) (hk.2 ev)⟩

/-- An oracle leaves a program one trace. -/
theorem unique {p : Prog E R α} {xs ys : List (Event E R)} {a b : α} (hx : Oracle f p xs a)
    (hy : Oracle f p ys b) : xs = ys ∧ a = b := by
  rcases hx.1.agree hy.1 with h | ⟨pre, e, r, r', xs', ys', hne, rfl, rfl⟩
  · exact h
  · have h1 : r = f e := hx.2 ⟨e, r⟩ (by simp)
    have h2 : r' = f e := hy.2 ⟨e, r'⟩ (by simp)
    exact absurd (h1.trans h2.symm) hne

end Oracle

/-- What a program cannot return does not matter for what comes after it. -/
theorem bind_congr_of_trace {p : Prog E R α} {f g : α → Prog E R β}
    (h : ∀ evs a, Trace p evs a → f a = g a) : p >>= f = p >>= g := by
  induction p with
  | ret a => exact h [] a (.ret a)
  | act e k ih =>
    rw [Prog.act_bind, Prog.act_bind]
    congr 1
    funext r
    exact ih r fun evs a ht => h _ a (.act ht)

/-! ## What holds of every trace -/

/-- Against any surroundings, every event of `p` satisfies `P` and its result satisfies `Q`. -/
def Always (P : Event E R → Prop) (p : Prog E R α) (Q : α → Prop) : Prop :=
  ∀ evs a, Trace p evs a → (∀ ev ∈ evs, P ev) ∧ Q a

variable {P : Event E R → Prop}

theorem Always.ret {a : α} {Q : α → Prop} (h : Q a) : Always P (.ret a) Q := by
  intro evs b ht
  obtain ⟨rfl, rfl⟩ := trace_ret.mp ht
  exact ⟨fun _ hm => (List.not_mem_nil hm).elim, h⟩

theorem Always.act {e : E} {k : R e → Prog E R α} {Q : α → Prop} (he : ∀ r, P ⟨e, r⟩)
    (hk : ∀ r, Always P (k r) Q) : Always P (.act e k) Q := by
  intro evs a ht
  obtain ⟨r, evs', rfl, hr⟩ := trace_act.mp ht
  obtain ⟨hevs, ha⟩ := hk r _ _ hr
  refine ⟨fun ev hev => ?_, ha⟩
  rcases List.mem_cons.mp hev with rfl | hev
  · exact he r
  · exact hevs ev hev

/-- Sequential composition: the result of the first program is all the second one knows. -/
theorem Always.bind {p : Prog E R α} {f : α → Prog E R β} {Q : α → Prop} {Q' : β → Prop}
    (hp : Always P p Q) (hf : ∀ a, Q a → Always P (f a) Q') : Always P (p >>= f) Q' := by
  intro evs b ht
  obtain ⟨xs, ys, a, rfl, hx, hy⟩ := trace_bind.mp ht
  obtain ⟨h1, ha⟩ := hp _ _ hx
  obtain ⟨h2, hb⟩ := hf a ha _ _ hy
  exact ⟨fun ev hev => (List.mem_append.mp hev).elim (h1 ev) (h2 ev), hb⟩

theorem Always.mono {p : Prog E R α} {Q Q' : α → Prop} (hp : Always P p Q)
    (h : ∀ a, Q a → Q' a) : Always P p Q' :=
  fun evs a ht => ⟨(hp evs a ht).1, h a (hp evs a ht).2⟩

/-! ## Runs against a deterministic handler -/

section Run

variable {σ : Type}

/-- What a run leaves behind: the result, the events in order, and the final state. -/
structure Outcome (E : Type) (R : E → Type) (σ α : Type) where
  value : α
  events : List (Event E R)
  state : σ

/-- Answer every action of the program by the handler `h`. -/
def run (h : (e : E) → σ → R e × σ) : Prog E R α → σ → Outcome E R σ α
  | .ret a, s => ⟨a, [], s⟩
  | .act e k, s =>
    let o := run h (k (h e s).1) (h e s).2
    ⟨o.value, ⟨e, (h e s).1⟩ :: o.events, o.state⟩

/-- **Runs compose**: the second program goes on from the result and the state of the first. -/
theorem run_bind (h : (e : E) → σ → R e × σ) (p : Prog E R α) (f : α → Prog E R β) (s : σ) :
    run h (p >>= f) s =
      let o := run h p s
      let o' := run h (f o.value) o.state
      ⟨o'.value, o.events ++ o'.events, o'.state⟩ := by
  induction p generalizing s with
  | ret a => rfl
  | act e k ih => rw [Prog.act_bind, run, run, ih]; rfl

/-- `Answered h s evs s'`: from `s`, the handler gives exactly the answers in `evs`. -/
inductive Answered (h : (e : E) → σ → R e × σ) : σ → List (Event E R) → σ → Prop where
  | nil (s : σ) : Answered h s [] s
  | cons {s s' : σ} {e : E} {evs : List (Event E R)} :
      Answered h (h e s).2 evs s' → Answered h s (⟨e, (h e s).1⟩ :: evs) s'

/-- **A run is a trace**, and its answers are the handler's. -/
theorem run_trace (h : (e : E) → σ → R e × σ) (p : Prog E R α) (s : σ) :
    Trace p (run h p s).events (run h p s).value ∧
      Answered h s (run h p s).events (run h p s).state := by
  induction p generalizing s with
  | ret a => exact ⟨.ret a, .nil s⟩
  | act e k ih =>
    obtain ⟨ht, ha⟩ := ih (h e s).1 (h e s).2
    exact ⟨.act ht, .cons ha⟩

/-- Where no action changes the answer to another one, a run is answered by an oracle. -/
theorem run_oracle {h : (e : E) → σ → R e × σ}
    (hkeep : ∀ e s e', (h e' (h e s).2).1 = (h e' s).1) (p : Prog E R α) (s : σ) :
    Oracle (fun e => (h e s).1) p (run h p s).events (run h p s).value := by
  induction p generalizing s with
  | ret a => exact .ret a
  | act e k ih =>
    have hrest := ih (h e s).1 (h e s).2
    simp only [hkeep] at hrest
    exact .act hrest

end Run

/-! ## Runs under interference -/

section Steps

variable {σ L : Type}

/-- One label of a run: an event of the program, or a move of the surroundings. -/
inductive Label (E : Type) (R : E → Type) (L : Type) where
  | act (ev : Event E R)
  | env (l : L)

/-- The program's own events in a run. -/
def acts : List (Label E R L) → List (Event E R)
  | [] => []
  | .act ev :: tr => ev :: acts tr
  | .env _ :: tr => acts tr

@[simp] theorem acts_append (xs ys : List (Label E R L)) :
    acts (xs ++ ys) = acts xs ++ acts ys := by
  induction xs with
  | nil => rfl
  | cons x xs ih => cases x <;> simp [acts, ih]

/-- `Steps ans env p s tr q t`: program `p` in state `s` runs through the labels `tr` to what
is left of it, `q`, in state `t`.  `ans s e r t` answers an action, `env s l t` is a move of
the surroundings; either may come first at every point. -/
inductive Steps (ans : σ → (e : E) → R e → σ → Prop) (env : σ → L → σ → Prop) :
    Prog E R α → σ → List (Label E R L) → Prog E R α → σ → Prop where
  | refl (p : Prog E R α) (s : σ) : Steps ans env p s [] p s
  | act {e : E} {k : R e → Prog E R α} {q : Prog E R α} {r : R e} {s t u : σ}
      {tr : List (Label E R L)} :
      ans s e r t → Steps ans env (k r) t tr q u →
        Steps ans env (.act e k) s (.act ⟨e, r⟩ :: tr) q u
  | env {p q : Prog E R α} {l : L} {s t u : σ} {tr : List (Label E R L)} :
      env s l t → Steps ans env p t tr q u → Steps ans env p s (.env l :: tr) q u

variable {ans : σ → (e : E) → R e → σ → Prop} {env : σ → L → σ → Prop}

theorem Steps.trans {p q r : Prog E R α} {s t u : σ} {xs ys : List (Label E R L)}
    (h : Steps ans env p s xs q t) (h' : Steps ans env q t ys r u) :
    Steps ans env p s (xs ++ ys) r u := by
  induction h with
  | refl => exact h'
  | act ha _ ih => exact .act ha (ih h')
  | env he _ ih => exact .env he (ih h')

/-- A completed run of a program that starts with an action: some moves of the surroundings, the
action, and the rest. -/
theorem Steps.first_act {e : E} {k : R e → Prog E R α} {a : α} {s u : σ}
    {tr : List (Label E R L)} (h : Steps ans env (.act e k) s tr (.ret a) u) :
    ∃ (ls : List L) (r : R e) (t t' : σ) (ys : List (Label E R L)),
      tr = ls.map .env ++ .act ⟨e, r⟩ :: ys ∧
      Steps ans env (.act e k) s (ls.map .env) (.act e k) t ∧ ans t e r t' ∧
      Steps ans env (k r) t' ys (.ret a) u := by
  generalize hp : Prog.act e k = p at h
  generalize hq : (Prog.ret a : Prog E R α) = q at h
  induction h with
  | refl p s => subst hp; cases hq
  | @act e' k' q r s t u tr ha hs _ =>
    cases hp
    exact ⟨[], r, s, t, tr, rfl, .refl _ s, ha, hq ▸ hs⟩
  | @env p q l s t u tr he hs ih =>
    obtain ⟨ls, r, t₁, t₂, ys, rfl, h1, h2, h3⟩ := ih hp hq
    subst hp
    exact ⟨l :: ls, r, t₁, t₂, ys, rfl, .env he h1, h2, h3⟩

/-- The program's own events in a completed run are a trace of it. -/
theorem Steps.trace {p q : Prog E R α} {a : α} {s t : σ} {tr : List (Label E R L)}
    (h : Steps ans env p s tr q t) (hq : q = .ret a) : Trace p (acts tr) a := by
  induction h with
  | refl => subst hq; exact .ret a
  | act _ _ ih => exact .act (ih hq)
  | env _ _ ih => exact ih hq

/-- What an interleaved run leaves behind: the result, the labels in order, the final state. -/
structure Interleaved (E : Type) (R : E → Type) (σ L α : Type) where
  value : α
  labels : List (Label E R L)
  state : σ

/-- Run against a handler `h`, the surroundings making the `i`-th list of moves before the `i`-th
action, and the moves that are left after the last one. -/
def runAmid (h : (e : E) → σ → R e × σ) (move : σ → L → σ) :
    Prog E R α → List (List L) → σ → Interleaved E R σ L α
  | .ret a, ms, s => ⟨a, ms.flatten.map .env, ms.flatten.foldl move s⟩
  | .act e k, ms, s =>
    let r := h e ((ms.headD []).foldl move s)
    let o := runAmid h move (k r.1) ms.tail r.2
    ⟨o.value, (ms.headD []).map .env ++ .act ⟨e, r.1⟩ :: o.labels, o.state⟩

theorem steps_moves {move : σ → L → σ} (henv : ∀ s l, env s l (move s l)) (ls : List L)
    (p : Prog E R α) (s : σ) : Steps ans env p s (ls.map .env) p (ls.foldl move s) := by
  induction ls generalizing s with
  | nil => exact .refl p s
  | cons l ls ih => exact .env (henv s l) (ih _)

/-- **An interleaved run is a run under interference.** -/
theorem runAmid_steps {h : (e : E) → σ → R e × σ} {move : σ → L → σ}
    (hans : ∀ s e, ans s e (h e s).1 (h e s).2) (henv : ∀ s l, env s l (move s l))
    (p : Prog E R α) (ms : List (List L)) (s : σ) :
    Steps ans env p s (runAmid h move p ms s).labels (.ret (runAmid h move p ms s).value)
      (runAmid h move p ms s).state := by
  induction p generalizing ms s with
  | ret a => exact steps_moves henv _ _ _
  | act e k ih => exact (steps_moves henv _ _ _).trans (.act (hans _ e) (ih _ _ _))

end Steps

end Interaction
