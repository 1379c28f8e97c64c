import Mathlib

/-!
# Paths in a tree of files

A place is the list of names from it up to the root, so that the places above it are its suffixes.
A path is walked component by component, each from a place that must be a directory.

* `Tree` — what is at each place; only a directory has anything below it.
* `read` — the file that a path leads to from a place.
* `read_eq_some_iff` — which places decide that.
* `local_iff` — when a path leads to the same in all trees that have the same below a place.
* `descend` — every place can be reached from the root by the names on the way.
-/

set_option autoImplicit false

namespace FileTree

inductive Entry (D : Type) where
  | file (data : D)
  | directory

variable {N D : Type}

/-- A tree without links. -/
structure Tree (N D : Type) where
  entry : List N → Option (Entry D)
  root : entry [] = some .directory
  above : ∀ n p, (entry (n :: p)).isSome → entry p = some .directory

/-- One component of a path. -/
inductive Component (N : Type) where
  | here
  | up
  | name (n : N)

/-- The root is its own parent. -/
def go (p : List N) : Component N → List N
  | .here => p
  | .up => p.tail
  | .name n => n :: p

/-- The place that the path leads to if there is everything it needs. -/
def goal : List N → List (Component N) → List N
  | p, [] => p
  | p, c :: cs => goal (go p c) cs

/-- The places from which a component is followed. -/
def passed : List N → List (Component N) → List (List N)
  | _, [] => []
  | p, c :: cs => p :: passed (go p c) cs

section

variable (t : Tree N D)

/-- What the path leads to; every component needs a directory to start from. -/
def lookup : List N → List (Component N) → Option (Entry D)
  | p, [] => t.entry p
  | p, c :: cs =>
    match t.entry p with
    | some .directory => lookup (go p c) cs
    | _ => none

/-- The data of the file that the path leads to. -/
def read (p : List N) (cs : List (Component N)) : Option D :=
  match lookup t p cs with
  | some (.file data) => some data
  | _ => none

end

/-! ## Above and below -/

variable {t : Tree N D}

theorem Tree.above_suffix (t : Tree N D) {p q : List N} (hpq : p <:+ q) (hne : p ≠ q)
    (hq : (t.entry q).isSome) : t.entry p = some .directory := by
  induction q with
  | nil => exact absurd (List.suffix_nil.mp hpq) hne
  | cons n q ih =>
    rcases List.suffix_cons_iff.mp hpq with rfl | hpq
    · exact absurd rfl hne
    · have hdir := t.above n q hq
      by_cases heq : p = q
      · rw [heq]
        exact hdir
      · apply ih hpq heq
        rw [hdir]
        rfl

/-- What is above a directory is one, and so is the directory. -/
theorem Tree.directory_suffix (t : Tree N D) {p q : List N} (hpq : p <:+ q)
    (hq : t.entry q = some .directory) : t.entry p = some .directory := by
  by_cases hne : p = q
  · rw [hne]
    exact hq
  · apply t.above_suffix hpq hne
    rw [hq]
    rfl

/-! ## What decides a lookup -/

theorem lookup_eq {p : List N} {cs : List (Component N)}
    (h : ∀ x ∈ passed p cs, t.entry x = some .directory) :
    lookup t p cs = t.entry (goal p cs) := by
  induction cs generalizing p with
  | nil => rfl
  | cons c cs ih =>
    rw [passed, List.forall_mem_cons] at h
    rw [lookup, h.1]
    exact ih h.2

theorem passed_directory {p : List N} {cs : List (Component N)} (h : (lookup t p cs).isSome) :
    ∀ x ∈ passed p cs, t.entry x = some .directory := by
  induction cs generalizing p with
  | nil =>
    intro x hx
    cases hx
  | cons c cs ih =>
    unfold lookup at h
    split at h
    · rename_i hdir
      rw [passed, List.forall_mem_cons]
      exact ⟨hdir, ih h⟩
    · cases h

/-- **The places that decide**: those passed must be directories, and the goal the file. -/
theorem read_eq_some_iff {p : List N} {cs : List (Component N)} {data : D} :
    read t p cs = some data ↔
      (∀ x ∈ passed p cs, t.entry x = some .directory) ∧
        t.entry (goal p cs) = some (.file data) := by
  have hread : read t p cs = some data ↔ lookup t p cs = some (.file data) := by
    unfold read
    split
    · rename_i data' hdata
      rw [hdata]
      simp
    · rename_i hfile
      exact iff_of_false nofun (hfile data)
  rw [hread]
  constructor
  · intro h
    have hsome : (lookup t p cs).isSome := by
      rw [h]
      rfl
    have hpassed := passed_directory hsome
    exact ⟨hpassed, (lookup_eq hpassed).symm.trans h⟩
  · rintro ⟨hpassed, hgoal⟩
    exact (lookup_eq hpassed).trans hgoal

/-- A goal that is above a directory, or is one, is no file. -/
theorem read_eq_none {p : List N} {cs : List (Component N)} {q : List N}
    (hq : t.entry q = some .directory) (hgoal : goal p cs <:+ q) : read t p cs = none := by
  rw [Option.eq_none_iff_forall_ne_some]
  intro data hdata
  rw [read_eq_some_iff, t.directory_suffix hgoal hq] at hdata
  cases hdata.2

/-! ## Names on the way down -/

theorem goal_append (p : List N) (xs ys : List (Component N)) :
    goal p (xs ++ ys) = goal (goal p xs) ys := by
  induction xs generalizing p with
  | nil => rfl
  | cons c xs ih => exact ih (go p c)

theorem passed_append (p : List N) (xs ys : List (Component N)) :
    passed p (xs ++ ys) = passed p xs ++ passed (goal p xs) ys := by
  induction xs generalizing p with
  | nil => rfl
  | cons c xs ih => exact congrArg (p :: ·) (ih (go p c))

theorem descend (p q : List N) :
    goal p (q.reverse.map .name) = q ++ p ∧
      ∀ x ∈ passed p (q.reverse.map .name), x <:+ (q ++ p).tail := by
  induction q with
  | nil => exact ⟨rfl, fun x hx => by cases hx⟩
  | cons n q ih =>
    rw [List.reverse_cons, List.map_append, goal_append, passed_append, ih.1]
    refine ⟨rfl, fun x hx => ?_⟩
    rcases List.mem_append.mp hx with hx | hx
    · exact (ih.2 x hx).trans (List.tail_suffix _)
    · rw [List.mem_singleton.mp hx]
      exact List.suffix_rfl

theorem climb (p : List N) (k : ℕ) :
    goal p (List.replicate k .up) = p.drop k ∧
      ∀ x ∈ passed p (List.replicate k .up), x <:+ p := by
  induction k generalizing p with
  | zero => exact ⟨rfl, fun x hx => by cases hx⟩
  | succ k ih =>
    obtain ⟨hgoal, hpassed⟩ := ih p.tail
    rw [List.replicate_succ, goal, passed, go, hgoal, List.drop_tail]
    refine ⟨rfl, fun x hx => ?_⟩
    rcases List.mem_cons.mp hx with rfl | hx
    · exact List.suffix_rfl
    · exact (hpassed x hx).trans (List.tail_suffix p)

/-! ## Paths that depend on one directory only -/

/-- The two trees have the same at `q` and below. -/
def SameBelow (q : List N) (t t' : Tree N D) : Prop := ∀ p, q <:+ p → t.entry p = t'.entry p

/-- Above `q`, at it or below. -/
def Along (q p : List N) : Prop := p <:+ q ∨ q <:+ p

/-- The path leads to no file in any tree: its goal is above something that must be a directory. -/
def NoFile (q p : List N) (cs : List (Component N)) : Prop :=
  ∃ x ∈ q :: passed p cs, goal p cs <:+ x

/-- The path stays on the way to `q` and below. -/
def Stays (q p : List N) (cs : List (Component N)) : Prop :=
  ∀ x ∈ goal p cs :: passed p cs, Along q x

instance [DecidableEq N] (q p : List N) (cs : List (Component N)) : Decidable (NoFile q p cs) :=
  inferInstanceAs (Decidable (∃ x ∈ q :: passed p cs, goal p cs <:+ x))

instance [DecidableEq N] (q p : List N) (cs : List (Component N)) : Decidable (Stays q p cs) :=
  inferInstanceAs (Decidable (∀ x ∈ goal p cs :: passed p cs, x <:+ q ∨ q <:+ x))

theorem read_noFile {q p : List N} {cs : List (Component N)} (h : NoFile q p cs)
    (hq : t.entry q = some .directory) : read t p cs = none := by
  obtain ⟨x, hx, hgoal⟩ := h
  rcases List.mem_cons.mp hx with rfl | hx
  · exact read_eq_none hq hgoal
  · rw [Option.eq_none_iff_forall_ne_some]
    intro data hdata
    have hdir := (read_eq_some_iff.mp hdata).1 x hx
    rw [read_eq_none hdir hgoal] at hdata
    cases hdata

theorem SameBelow.along {q p : List N} {t t' : Tree N D} (h : SameBelow q t t')
    (hq : t.entry q = some .directory) (hp : Along q p) : t.entry p = t'.entry p := by
  rcases hp with hp | hp
  · have hq' : t'.entry q = some .directory := by
      rw [← h q List.suffix_rfl]
      exact hq
    rw [t.directory_suffix hp hq, t'.directory_suffix hp hq']
  · exact h p hp

theorem lookup_congr {p : List N} {cs : List (Component N)} {t t' : Tree N D}
    (h : ∀ x ∈ goal p cs :: passed p cs, t.entry x = t'.entry x) :
    lookup t p cs = lookup t' p cs := by
  induction cs generalizing p with
  | nil => exact h p List.mem_cons_self
  | cons c cs ih =>
    rw [goal, passed, List.forall_mem_cons, List.forall_mem_cons] at h
    obtain ⟨hgoal, hp, hpassed⟩ := h
    have hrest := ih (List.forall_mem_cons.mpr ⟨hgoal, hpassed⟩)
    rw [lookup, lookup, hp, hrest]

theorem lookup_same {q p : List N} {cs : List (Component N)} {t t' : Tree N D}
    (h : SameBelow q t t') (hq : t.entry q = some .directory) (hstays : Stays q p cs) :
    lookup t p cs = lookup t' p cs :=
  lookup_congr fun x hx => h.along hq (hstays x hx)

/-! ## A tree in which a path leads to a file -/

/-- Where a place comes from: it has been passed, or the place above it has, or the path started
below it. -/
theorem goal_above {p : List N} {cs : List (Component N)} {n : N} {g : List N}
    (h : goal p cs = n :: g) :
    (∃ x ∈ passed p cs, n :: g <:+ x) ∨ g ∈ passed p cs ∨ n :: g <:+ p := by
  induction cs generalizing p with
  | nil => exact .inr (.inr (h ▸ List.suffix_rfl))
  | cons c cs ih =>
    rw [passed]
    rcases ih h with ⟨x, hx, hsuffix⟩ | hg | hsuffix
    · exact .inl ⟨x, List.mem_cons_of_mem _ hx, hsuffix⟩
    · exact .inr (.inl (List.mem_cons_of_mem _ hg))
    · cases c with
      | here => exact .inr (.inr hsuffix)
      | up => exact .inr (.inr (hsuffix.trans (List.tail_suffix p)))
      | name m =>
        rcases List.suffix_cons_iff.mp hsuffix with heq | hsuffix
        · obtain ⟨-, rfl⟩ := List.cons_eq_cons.mp heq
          exact .inr (.inl List.mem_cons_self)
        · exact .inr (.inr hsuffix)

section

open Classical

/-- Directories where the path needs them and on the way to `q`, and a file at its goal. -/
noncomputable def treeOf (q p : List N) (cs : List (Component N)) (data : D) (hp : p <:+ q)
    (h : ¬NoFile q p cs) : Tree N D where
  entry x :=
    if ∃ y ∈ q :: passed p cs, x <:+ y then some .directory
    else if x = goal p cs then some (.file data) else none
  root := if_pos ⟨q, List.mem_cons_self, List.nil_suffix⟩
  above n x hx := by
    apply if_pos
    split at hx
    · rename_i hdir
      obtain ⟨y, hy, hsuffix⟩ := hdir
      exact ⟨y, hy, (List.suffix_cons n x).trans hsuffix⟩
    split at hx
    · rename_i hgoal
      rcases goal_above hgoal.symm with ⟨y, hy, hsuffix⟩ | hpassed | hsuffix
      · exact absurd ⟨y, List.mem_cons_of_mem _ hy, hgoal ▸ hsuffix⟩ h
      · exact ⟨x, List.mem_cons_of_mem _ hpassed, List.suffix_rfl⟩
      · exact absurd ⟨q, List.mem_cons_self, hgoal ▸ hsuffix.trans hp⟩ h
    · cases hx

/-- The tree without what is at `v` and below. -/
noncomputable def prune (t : Tree N D) (v : List N) (hv : v ≠ []) : Tree N D where
  entry x := if v <:+ x then none else t.entry x
  root := by
    rw [if_neg fun h => hv (List.suffix_nil.mp h)]
    exact t.root
  above n x hx := by
    split at hx
    · cases hx
    · rename_i hnot
      rw [if_neg fun h => hnot (h.trans (List.suffix_cons n x))]
      exact t.above n x hx

variable {q p : List N} {cs : List (Component N)} {data : D}

theorem treeOf_directory (hp : p <:+ q) (h : ¬NoFile q p cs) {x : List N}
    (hx : x ∈ q :: passed p cs) : (treeOf q p cs data hp h).entry x = some .directory :=
  if_pos ⟨x, hx, List.suffix_rfl⟩

theorem read_treeOf (hp : p <:+ q) (h : ¬NoFile q p cs) :
    read (treeOf q p cs data hp h) p cs = some data := by
  rw [read_eq_some_iff]
  refine ⟨fun x hx => treeOf_directory hp h (List.mem_cons_of_mem _ hx), ?_⟩
  exact (if_neg h).trans (if_pos rfl)

theorem read_prune {v : List N} (hv : v ≠ []) (hmem : v ∈ goal p cs :: passed p cs) :
    read (prune t v hv) p cs = none := by
  have hgone : (prune t v hv).entry v = none := if_pos List.suffix_rfl
  rw [Option.eq_none_iff_forall_ne_some]
  intro data hdata
  obtain ⟨hpassed, hgoal⟩ := read_eq_some_iff.mp hdata
  rcases List.mem_cons.mp hmem with rfl | hmem
  · rw [hgone] at hgoal
    cases hgoal
  · have hdir := hpassed v hmem
    rw [hgone] at hdir
    cases hdir

/-- **Paths that depend on one directory only**: what is outside `q` makes no difference exactly
when the path leads to no file in any tree or stays on the way to `q` and below. -/
theorem local_iff [Nonempty D] (hp : p <:+ q) :
    (∀ t t' : Tree N D, t.entry q = some .directory → SameBelow q t t' →
      read t p cs = read t' p cs) ↔ NoFile q p cs ∨ Stays q p cs := by
  constructor
  · intro hsame
    by_contra hnot
    rw [not_or] at hnot
    obtain ⟨hfile, hleaves⟩ := hnot
    unfold Stays at hleaves
    push Not at hleaves
    obtain ⟨v, hmem, hv⟩ := hleaves
    obtain ⟨data⟩ := ‹Nonempty D›
    have hne : v ≠ [] := by
      rintro rfl
      exact hv (.inl List.nil_suffix)
    have hbelow : SameBelow q (treeOf q p cs data hp hfile)
        (prune (treeOf q p cs data hp hfile) v hne) := by
      intro x hx
      have hnot : ¬v <:+ x := by
        intro hvx
        rcases List.suffix_or_suffix_of_suffix hvx hx with h | h
        · exact hv (.inl h)
        · exact hv (.inr h)
      exact (if_neg hnot).symm
    have heq := hsame _ _ (treeOf_directory hp hfile List.mem_cons_self) hbelow
    rw [read_treeOf hp hfile, read_prune hne hmem] at heq
    cases heq
  · rintro (hnone | hstays) t t' hq hbelow
    · have hq' : t'.entry q = some .directory := by
        rw [← hbelow q List.suffix_rfl]
        exact hq
      rw [read_noFile hnone hq, read_noFile hnone hq']
    · unfold read
      rw [lookup_same hbelow hq hstays]

end

end FileTree
