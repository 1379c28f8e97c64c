import Mathlib

/-!
# Updates by reading and writing back

Several parties change one shared value.  A request reads the value in one step and writes the
changed value back in a later one; other parties may write in between.  `upd r v` is the value that
the request `r` makes of `v`, `none` if it refuses to change it.

* `Phase` — how far a party has come with its request.
* `Linearized` — the value is what some one-at-a-time order of the requests gives, in which each
  party's requests come in the order they were made.
* `Linearized.set` — a write keeps this if the value is the one that was read, or nothing is
  written.
-/

set_option autoImplicit false

namespace ReadModifyWrite

variable {ι R σ : Type}

inductive Phase (R σ : Type) where
  | idle
  | asked (r : R)
  | read (r : R) (seen : σ)
  deriving DecidableEq

variable (upd : R → σ → Option σ)

/-- One request, run alone. -/
def perform (v : σ) (r : R) : σ := (upd r v).getD v

/-- The requests `rs`, one at a time. -/
def inOrder (v : σ) (rs : List (ι × R)) : σ := rs.foldl (fun v r => perform upd v r.2) v

/-- What a party has asked for and is not in the order yet; a refusal is settled by the read. -/
def Phase.owed : Phase R σ → List R
  | .idle => []
  | .asked r => [r]
  | .read r seen => if (upd r seen).isSome then [r] else []

variable [DecidableEq ι]

/-- The requests of one party. -/
def requestsOf (t : ι) (rs : List (ι × R)) : List R := (rs.filter (·.1 = t)).map (·.2)

theorem requestsOf_append (t : ι) (xs ys : List (ι × R)) :
    requestsOf t (xs ++ ys) = requestsOf t xs ++ requestsOf t ys := by
  rw [requestsOf, List.filter_append, List.map_append]
  rfl

theorem requestsOf_party (t u : ι) (rs : List R) :
    requestsOf u (rs.map (t, ·)) = if t = u then rs else [] := by
  induction rs with
  | nil => simp [requestsOf]
  | cons r rs ih =>
    rw [List.map_cons, ← List.singleton_append, requestsOf_append, ih]
    by_cases h : t = u <;> simp [requestsOf, h]

variable {upd}

omit [DecidableEq ι] in
theorem inOrder_concat (v : σ) (rs : List (ι × R)) (t : ι) (r : R) :
    inOrder upd v (rs ++ [(t, r)]) = perform upd (inOrder upd v rs) r := List.foldl_append

/-- The value is reached by an order of the requests made, apart from those still owed. -/
def Linearized (upd : R → σ → Option σ) (v₀ v : σ) (made : List (ι × R))
    (phase : ι → Phase R σ) : Prop :=
  ∃ order : List (ι × R), inOrder upd v₀ order = v ∧
    ∀ t, requestsOf t made = requestsOf t order ++ (phase t).owed upd

variable {v₀ v : σ} {made order : List (ι × R)} {phase : ι → Phase R σ} {t : ι} {r : R}

/-- One party goes on: what it asks for now and what is put into the order account for what it
owes. -/
theorem owed_step (hall : ∀ u, requestsOf u made = requestsOf u order ++ (phase u).owed upd)
    {p : Phase R σ} {asked settled : List R}
    (h : (phase t).owed upd ++ asked = settled ++ p.owed upd) (u : ι) :
    requestsOf u (made ++ asked.map (t, ·)) =
      requestsOf u (order ++ settled.map (t, ·)) ++
        (Function.update phase t p u).owed upd := by
  rw [requestsOf_append, requestsOf_append, requestsOf_party, requestsOf_party, hall u]
  by_cases hu : t = u
  · subst hu
    rw [if_pos rfl, if_pos rfl, Function.update_self, List.append_assoc, h, List.append_assoc]
  · rw [if_neg hu, if_neg hu, Function.update_of_ne (Ne.symm hu), List.append_nil, List.append_nil]

theorem Linearized.start (v₀ : σ) : Linearized upd v₀ v₀ ([] : List (ι × R)) fun _ => .idle :=
  ⟨[], rfl, fun _ => rfl⟩

theorem Linearized.ask (h : Linearized upd v₀ v made phase) (hidle : phase t = .idle) (r : R) :
    Linearized upd v₀ v (made ++ [(t, r)]) (Function.update phase t (.asked r)) := by
  obtain ⟨order, hv, hall⟩ := h
  have howed : (phase t).owed upd ++ [r] = [] ++ (Phase.asked r).owed upd := by
    rw [hidle]
    rfl
  have hstep := owed_step hall howed
  rw [List.map_nil, List.append_nil] at hstep
  exact ⟨order, hv, hstep⟩

/-- The value read decides whether the request is refused; if so, it takes its place here. -/
theorem Linearized.read (h : Linearized upd v₀ v made phase) (hasked : phase t = .asked r) :
    Linearized upd v₀ v made (Function.update phase t (.read r v)) := by
  obtain ⟨order, hv, hall⟩ := h
  rw [← List.append_nil made]
  cases hupd : upd r v with
  | none =>
    have howed : (phase t).owed upd ++ [] = [r] ++ (Phase.read r v).owed upd := by
      simp [hasked, Phase.owed, hupd]
    refine ⟨order ++ [(t, r)], ?_, owed_step hall howed⟩
    rw [inOrder_concat, hv, perform, hupd]
    rfl
  | some w =>
    have howed : (phase t).owed upd ++ [] = [] ++ (Phase.read r v).owed upd := by
      simp [hasked, Phase.owed, hupd]
    have hstep := owed_step hall howed
    rw [List.map_nil, List.append_nil order] at hstep
    exact ⟨order, hv, hstep⟩

/-- **The write**: it loses no other update if the value is still the one that was read. -/
theorem Linearized.set (h : Linearized upd v₀ v made phase) {seen : σ}
    (hread : phase t = .read r seen) (hsame : (upd r seen).isSome → v = seen) :
    Linearized upd v₀ ((upd r seen).getD v) made (Function.update phase t .idle) := by
  obtain ⟨order, hv, hall⟩ := h
  rw [← List.append_nil made]
  cases hupd : upd r seen with
  | none =>
    have howed : (phase t).owed upd ++ [] = [] ++ (Phase.idle : Phase R σ).owed upd := by
      simp [hread, Phase.owed, hupd]
    have hstep := owed_step hall howed
    rw [List.map_nil, List.append_nil order] at hstep
    exact ⟨order, hv, hstep⟩
  | some w =>
    obtain rfl : v = seen := hsame (by rw [hupd]; rfl)
    have howed : (phase t).owed upd ++ [] = [r] ++ (Phase.idle : Phase R σ).owed upd := by
      simp [hread, Phase.owed, hupd]
    refine ⟨order ++ [(t, r)], ?_, owed_step hall howed⟩
    rw [inOrder_concat, hv, perform, hupd]

/-- With nothing owed, the order is one of all requests made. -/
theorem Linearized.finished (h : Linearized upd v₀ v made phase) (hidle : ∀ t, phase t = .idle) :
    ∃ order : List (ι × R), (∀ t, requestsOf t order = requestsOf t made) ∧
      inOrder upd v₀ order = v := by
  obtain ⟨order, hv, hall⟩ := h
  refine ⟨order, fun t => ?_, hv⟩
  rw [hall t, hidle t]
  exact (List.append_nil _).symm

end ReadModifyWrite
