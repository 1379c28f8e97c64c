import Mathlib

/-!
# Bounded first-in-first-out queues

A queue of at most `cap` elements.  `put` refuses exactly when the queue is full and then
changes nothing; `drain` removes a prefix.  `offer` puts a whole list, one element at a time,
and `offer_content` says what is kept: as many elements as there were free places.
-/

set_option autoImplicit false

/-- A queue of at most `cap` elements, oldest first. -/
structure BoundedQueue (α : Type) (cap : Nat) where
  content : List α
  length_le : content.length ≤ cap

namespace BoundedQueue

variable {α : Type} {cap : Nat}

@[ext] theorem ext {q r : BoundedQueue α cap} (h : q.content = r.content) : q = r := by
  cases q; cases r; cases h; rfl

/-- Free places. -/
def free (q : BoundedQueue α cap) : Nat := cap - q.content.length

/-- Append one element, or refuse (`false`) when the queue is full. -/
def put (a : α) (q : BoundedQueue α cap) : Bool × BoundedQueue α cap :=
  if h : q.content.length < cap then
    (true, ⟨q.content ++ [a], by rw [List.length_append, List.length_singleton]; omega⟩)
  else (false, q)

/-- Remove the `n` oldest elements (all of them when there are fewer). -/
def drain (n : Nat) (q : BoundedQueue α cap) : List α × BoundedQueue α cap :=
  (q.content.take n, ⟨q.content.drop n, by
    have := q.length_le
    rw [List.length_drop]; omega⟩)

theorem put_fst (a : α) (q : BoundedQueue α cap) : (q.put a).1 = decide (0 < q.free) := by
  unfold put free
  split <;> simp <;> omega

theorem put_content (a : α) (q : BoundedQueue α cap) :
    (q.put a).2.content = q.content ++ if (q.put a).1 then [a] else [] := by
  unfold put
  split <;> simp

theorem put_free (a : α) (q : BoundedQueue α cap) : (q.put a).2.free = q.free - 1 := by
  unfold put free
  split <;> simp <;> omega

/-- Nothing is lost by draining. -/
theorem drain_content (n : Nat) (q : BoundedQueue α cap) :
    (q.drain n).1 ++ (q.drain n).2.content = q.content :=
  List.take_append_drop n q.content

/-- Put a list, one element after the other; the answers are kept in order. -/
def offer : List α → BoundedQueue α cap → List Bool × BoundedQueue α cap
  | [], q => ([], q)
  | a :: as, q =>
    let r := offer as (q.put a).2
    ((q.put a).1 :: r.1, r.2)

/-- **What a bounded queue keeps of a list**: its first `free` elements. -/
theorem offer_content (as : List α) (q : BoundedQueue α cap) :
    (offer as q).2.content = q.content ++ as.take q.free := by
  induction as generalizing q with
  | nil => simp [offer]
  | cons a as ih =>
    unfold offer
    simp only
    rw [ih, put_content, put_fst, put_free]
    by_cases h : 0 < q.free
    · obtain ⟨n, hn⟩ : ∃ n, q.free = n + 1 := ⟨q.free - 1, by omega⟩
      simp [hn]
    · have h0 : q.free = 0 := by omega
      simp [h0]

/-- The first `free` elements are accepted, the others refused. -/
theorem offer_answers (as : List α) (q : BoundedQueue α cap) :
    (offer as q).1 = (List.range as.length).map fun i => decide (i < q.free) := by
  induction as generalizing q with
  | nil => rfl
  | cons a as ih =>
    rw [offer, List.length_cons, List.range_succ_eq_map]
    simp only [List.map_cons, List.map_map]
    rw [ih, put_fst, put_free]
    congr 1
    apply List.map_congr_left
    intro i _
    simp only [Function.comp, decide_eq_decide]
    omega

end BoundedQueue
