import Cmpt433.Morse.Text

/-!
# The scanning loops of the driver

The two trim loops and the inner loop of `my_write` are one loop: from a byte of user memory step
in a fixed direction to the next letter, or to a fault (`Scans`).

* `trimFront_scans`, `trimBack_scans`, `skipIgnored_scans` — the three loops as scans.
* `Scans.trace` — over readable bytes a scan ends at the first letter.
-/

set_option autoImplicit false

namespace Morse

open Interaction

/-! ## Where the loops stop -/

theorem isSpace_isAlpha {b : UInt8} (h : isAlpha b = true) : isSpace b = false :=
  forall_letter (P := fun b => isSpace b = false) (by decide) h

/-- The two trim loops run on exactly while the byte is no letter. -/
theorem trim_cond (b : UInt8) : (isSpace b || !isAlpha b) = !isAlpha b := by
  cases h : isAlpha b
  · simp
  · simp [isSpace_isAlpha h]

theorem charToMorse_letter {b : UInt8} (h : isAlpha b = true) :
    charToMorse b ≠ 1 ∧ charToMorse b ≠ 0 :=
  forall_letter (P := fun b => charToMorse b ≠ 1 ∧ charToMorse b ≠ 0) (by decide) h

theorem charToMorse_ignored {b : UInt8} (h : isAlpha b = false) :
    charToMorse b = if b = blank then 1 else 0 := by
  simp only [isAlpha, Bool.or_eq_false_iff] at h
  simp [charToMorse, h.1, h.2]

/-! ## Scans -/

variable {σ α : Type}

/-- A loop that stands at the byte `c` of index `i`: at a letter it returns `res`, elsewhere it
copies the next byte in the direction `d` and updates what it carries. -/
structure Scans (d : Int) (f : UserBuf → UInt8 → Int → σ → Drv (Option α))
    (res : UInt8 → Int → σ → α) (upd : UInt8 → σ → σ) : Prop where
  stop : ∀ {u c i s}, isAlpha c = true → f u c i s = .ret (some (res c i s))
  next : ∀ {u c i s}, isAlpha c = false → f u c i s = .act (.copy_from_user (i + d)) fun _ =>
    match u.mem (i + d) with
    | none => .ret none
    | some b => f u b (i + d) (upd c s)

theorem trimFront_scans :
    Scans 1 (fun u c i (_ : Unit) => trimFront u c i) (fun _ i _ => i) (fun _ s => s) where
  stop {u c i s} hl := by
    rw [trimFront, trim_cond, hl]
    rfl
  next {u c i s} hna := by
    rw [trimFront, trim_cond, hna]
    simp only [Bool.not_false, if_true]
    congr 1
    funext _
    split <;> rename_i h <;> rw [h]

/-- The loop looks at the byte before `end_idx`. -/
theorem trimBack_scans :
    Scans (-1) (fun u c i (_ : Unit) => trimBack u c (i + 1)) (fun _ i _ => i + 1)
      (fun _ s => s) where
  stop {u c i s} hl := by
    rw [trimBack, trim_cond, hl]
    rfl
  next {u c i s} hna := by
    have hnext : trimBack u c (i + 1) = .act (.copy_from_user (i + 1 - 1 - 1)) fun _ =>
        match u.mem (i + 1 - 1 - 1) with
        | none => .ret none
        | some c => trimBack u c (i + 1 - 1) := by
      rw [trimBack, trim_cond, hna]
      simp only [Bool.not_false, if_true]
      congr 1
      funext _
      split <;> rename_i h <;> rw [h]
    have h1 : i + 1 - 1 - 1 = i + -1 := by omega
    have h2 : i + 1 - 1 = i + -1 + 1 := by omega
    rw [hnext, h1, h2]

theorem skipIgnored_scans :
    Scans 1 (fun u c i spaceFlag => skipIgnored u (charToMorse c) i spaceFlag)
      (fun c i spaceFlag => (charToMorse c, i, spaceFlag))
      (fun c spaceFlag => spaceFlag || charToMorse c == 1) where
  stop {u c i s} hl := by
    have hne := charToMorse_letter hl
    rw [skipIgnored, if_neg (by simp [hne])]
  next {u c i s} hna := by
    rw [skipIgnored, if_pos (by rw [charToMorse_ignored hna]; split <;> simp)]
    congr 1
    funext _
    split <;> rename_i h <;> rw [h]

/-- The bytes `bs` stand at `i`, `i + d`, `i + 2d`, … -/
def UserBuf.Along (u : UserBuf) (d : Int) : Int → List UInt8 → Prop
  | _, [] => True
  | i, b :: bs => u.mem i = some b ∧ u.Along d (i + d) bs

/-- **A scan ends at the first letter**, after copying the bytes up to it. -/
theorem Scans.trace {d : Int} {f : UserBuf → UInt8 → Int → σ → Drv (Option α)}
    {res : UInt8 → Int → σ → α} {upd : UInt8 → σ → σ} (h : Scans d f res upd) {u : UserBuf}
    {i : Int} {c l : UInt8} {pre : List UInt8} (hat : u.Along d i (pre ++ [l]))
    (hpre : ∀ b ∈ pre, isAlpha b = false) (hl : isAlpha l = true) (hc : u.mem i = some c) (s : σ) :
    ∃ evs, Trace (f u c i s) evs
        (some (res l (i + d * pre.length) (pre.foldl (fun s b => upd b s) s))) ∧
      ∀ ev ∈ evs, ∃ j, ev.1 = .copy_from_user j := by
  induction pre generalizing i c s with
  | nil =>
    obtain rfl : l = c := Option.some.inj (hat.1.symm.trans hc)
    rw [h.stop hl]
    exact ⟨[], by simp, nofun⟩
  | cons b pre ih =>
    obtain rfl : b = c := Option.some.inj (hat.1.symm.trans hc)
    obtain ⟨b', hb'⟩ : ∃ b', u.mem (i + d) = some b' := by
      have hat' := hat.2
      cases pre with
      | nil => exact ⟨l, hat'.1⟩
      | cons b' _ => exact ⟨b', hat'.1⟩
    obtain ⟨evs, ht, hcopy⟩ := ih hat.2 (fun b hb => hpre b (List.mem_cons_of_mem _ hb)) hb' (upd b s)
    refine ⟨⟨.copy_from_user (i + d), ()⟩ :: evs, ?_, List.forall_mem_cons.mpr ⟨⟨_, rfl⟩, hcopy⟩⟩
    have hpos : i + d * ((b :: pre).length : Int) = i + d + d * pre.length := by
      rw [List.length_cons]
      push_cast
      ring
    rw [h.next (hpre b List.mem_cons_self), hpos, List.foldl_cons]
    refine .act ?_
    rw [hb']
    exact ht

end Morse
