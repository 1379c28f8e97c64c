import Cmpt433.Morse.Encode

/-!
# Which bytes of user memory a write reads

The three scanning loops stop at a letter or at a fault, never at the end of the buffer.  So a
write stays inside its buffer exactly when the buffer has a *stop*: a letter, or a byte that
faults (`write_reads_inside_iff`).  A buffer with no letter makes `trim_spaces` run past its end,
and `my_write` then encodes what it finds there (`lone_newline_reads_outside`).

The argument follows the loops: with a stop ahead and inside the buffer, each loop only reads up
to it (`Inside`), and two memories that agree on the buffer give the same program (`Local`).
-/

set_option autoImplicit false

namespace Morse

open Interaction

/-- The indices handed to `copy_from_user`. -/
def copied (evs : List (Event Call Call.Answer)) : List Int :=
  evs.filterMap fun
    | ⟨.copy_from_user i, _⟩ => some i
    | _ => none

/-- A scan stops here: a letter, or a fault. -/
def UserBuf.Stop (u : UserBuf) (p : Int) : Prop := ∀ b, u.mem p = some b → isAlpha b = true

/-- A letter stands here. -/
def UserBuf.Letter (u : UserBuf) (p : Int) : Prop := ∃ b, u.mem p = some b ∧ isAlpha b = true

/-- The two memories hold the same in `[0, n)`. -/
def Agree (n : Int) (u u' : UserBuf) : Prop := ∀ i, 0 ≤ i → i < n → u'.mem i = u.mem i

/-- A copy is made at an index in `[0, n)`; other events are not restricted. -/
def ReadInside (n : Int) (ev : Event Call Call.Answer) : Prop :=
  ∀ i, ev.1 = .copy_from_user i → 0 ≤ i ∧ i < n

/-- Every copy of the program is made in `[0, n)`, and every result satisfies `Q`. -/
abbrev Inside {α : Type} (n : Int) (p : Drv α) (Q : α → Prop) : Prop := Always (ReadInside n) p Q

variable {α : Type} {n : Int} {u u' : UserBuf}

theorem readInside_copy {i : Int} (h0 : 0 ≤ i) (hn : i < n)
    (r : (Call.copy_from_user i).Answer) : ReadInside n ⟨.copy_from_user i, r⟩ := by
  intro j hj
  cases hj
  exact ⟨h0, hn⟩

theorem readInside_other {e : Call} (h : ∀ i, e ≠ .copy_from_user i) (r : e.Answer) :
    ReadInside n ⟨e, r⟩ := fun i hi => absurd hi (h i)

theorem copy_inside {i : Int} (h0 : 0 ≤ i) (hn : i < n) :
    Inside n (copy_from_user u i) (fun r => r = u.mem i) :=
  .act (fun r => readInside_copy h0 hn r) fun _ => .ret rfl

theorem led_inside (full : Bool) : Inside n (led_trigger_event full) fun _ => True :=
  .act (fun r => readInside_other (fun _ => by simp) r) fun _ => .ret trivial

theorem sleep_inside (ms : Nat) : Inside n (msleep ms) fun _ => True :=
  .act (fun r => readInside_other (fun _ => by simp) r) fun _ => .ret trivial

theorem put_inside (c : UInt8) : Inside n (kfifo_put c) fun _ => True :=
  .act (fun r => readInside_other (fun _ => by simp) r) fun _ => .ret trivial

/-- The program only reads `[0, n)`, and `p'` is the same program on a memory `u'` that agrees
there. -/
structure Local {α : Type} (n : Int) (u u' : UserBuf) (p p' : Drv α) (Q : α → Prop) : Prop where
  inside : Inside n p Q
  same : Agree n u u' → p' = p

section

variable {β : Type} {Q Q' : α → Prop}

theorem Local.ret {a : α} (h : Q a) : Local n u u' (.ret a) (.ret a) Q :=
  ⟨.ret h, fun _ => rfl⟩

theorem Local.of_inside {p : Drv α} (h : Inside n p Q) : Local n u u' p p Q := ⟨h, fun _ => rfl⟩

theorem Local.mono {p p' : Drv α} (h : Local n u u' p p' Q) (hQ : ∀ a, Q a → Q' a) :
    Local n u u' p p' Q' :=
  ⟨h.inside.mono hQ, h.same⟩

/-- Sequential composition: the rests have to be the same for the results there can be. -/
theorem Local.bind {p p' : Drv α} {f f' : α → Drv β} {R : β → Prop} (hp : Local n u u' p p' Q)
    (hf : ∀ a, Q a → Local n u u' (f a) (f' a) R) : Local n u u' (p >>= f) (p' >>= f') R := by
  refine ⟨hp.inside.bind fun a ha => (hf a ha).inside, fun hag => ?_⟩
  rw [hp.same hag]
  exact bind_congr_of_trace fun evs a ht => (hf a (hp.inside _ _ ht).2).same hag

theorem Local.copy {i : Int} (h0 : 0 ≤ i) (hn : i < n) :
    Local n u u' (copy_from_user u i) (copy_from_user u' i) fun r => r = u.mem i := by
  refine ⟨copy_inside h0 hn, fun hag => ?_⟩
  rw [copy_from_user, copy_from_user, hag i h0 hn]

end

/-! ## The functions that read nothing -/

theorem flashLoop_inside (k : Nat) (morse : UInt16) :
    Inside n (flashLoop k morse) fun _ => True := by
  induction k generalizing morse with
  | zero => exact .ret trivial
  | succ k ih =>
    unfold flashLoop
    split
    · exact .ret trivial
    · split
      · refine (led_inside _).bind fun _ _ => (sleep_inside _).bind fun _ _ =>
          (put_inside _).bind fun ok _ => ?_
        split
        · exact ih _
        · exact .ret trivial
      · split
        · refine (led_inside _).bind fun _ _ => (sleep_inside _).bind fun _ _ =>
            (put_inside _).bind fun ok _ => ?_
          split
          · exact ih _
          · exact .ret trivial
        · exact (led_inside _).bind fun _ _ => (sleep_inside _).bind fun _ _ => ih _

theorem gap_inside (notFirst spaceFlag : Bool) :
    Inside n (gap notFirst spaceFlag) fun _ => True := by
  have hletter : Inside n letterGap fun _ => True :=
    (led_inside _).bind fun _ _ => (sleep_inside _).bind fun _ _ => put_inside _
  have hword : Inside n wordGap fun _ => True := by
    refine (led_inside _).bind fun _ _ => (sleep_inside _).bind fun _ _ =>
      (put_inside _).bind fun ok _ => ?_
    split
    · refine (put_inside _).bind fun ok _ => ?_
      split
      · exact put_inside _
      · exact .ret trivial
    · exact .ret trivial
  refine Always.bind (Q := fun _ => True) ?_ fun ok _ => ?_
  · split
    · exact hletter
    · exact .ret trivial
  · split
    · split
      · exact hword
      · exact .ret trivial
    · exact .ret trivial

/-! ## The scanning loops -/

/-- The buffer has a byte that cannot be read. -/
def Faults (n : Int) (u : UserBuf) : Prop := ∃ z, 0 ≤ z ∧ z < n ∧ u.mem z = none

/-- A stop is `k` steps ahead of `i`, and all the steps are in `[0, n)`. -/
def StopAhead (n d : Int) (u : UserBuf) : Nat → Int → Prop
  | 0, i => u.Stop i
  | k + 1, i => 0 ≤ i + d ∧ i + d < n ∧ StopAhead n d u k (i + d)

theorem stopAhead {d : Int} {k : Nat} {i : Int}
    (hinside : ∀ j : Nat, 1 ≤ j → j ≤ k → 0 ≤ i + d * j ∧ i + d * j < n)
    (hstop : u.Stop (i + d * k)) : StopAhead n d u k i := by
  have hshift : ∀ j : Nat, i + d * ((j + 1 : Nat) : Int) = i + d + d * j := by
    intro j
    push_cast
    ring
  induction k generalizing i with
  | zero => simpa [StopAhead] using hstop
  | succ k ih =>
    have hfirst := hinside 1 le_rfl (by omega)
    rw [Nat.cast_one, mul_one] at hfirst
    rw [hshift] at hstop
    refine ⟨hfirst.1, hfirst.2, ih (fun j h1 hj => ?_) hstop fun j => ?_⟩
    · rw [← hshift]
      exact hinside (j + 1) (by omega) (by omega)
    · push_cast
      ring

/-- What a scan returns: the result for a letter up to `k` steps ahead, or nothing after a
fault. -/
def ScanResult {σ α : Type} (n d : Int) (u : UserBuf) (res : UInt8 → Int → σ → α) (k : Nat)
    (i : Int) : Option α → Prop
  | some r => ∃ j : Nat, j ≤ k ∧ u.Letter (i + d * j) ∧ ∃ b s, r = res b (i + d * j) s
  | none => Faults n u

section

variable {σ : Type} {d : Int} {f : UserBuf → UInt8 → Int → σ → Drv (Option α)}
  {res : UInt8 → Int → σ → α} {upd : UInt8 → σ → σ} (h : Scans d f res upd) {k : Nat} {i : Int}
  {c : UInt8} (hc : u.mem i = some c)

include h hc

/-- A scan that stands at a letter. -/
theorem Scans.local_letter (hl : isAlpha c = true) (s : σ) :
    Local n u u' (f u c i s) (f u' c i s) (ScanResult n d u res k i) := by
  rw [h.stop hl, h.stop hl]
  exact .ret ⟨0, Nat.zero_le k, ⟨c, by simpa using hc, hl⟩, c, s, by simp⟩

/-- **A scan with a stop ahead stays inside the buffer**, and depends on nothing else. -/
theorem Scans.local (hstop : StopAhead n d u k i) (s : σ) :
    Local n u u' (f u c i s) (f u' c i s) (ScanResult n d u res k i) := by
  induction k generalizing i c s with
  | zero => exact h.local_letter hc (hstop c hc) s
  | succ k ih =>
    cases hl : isAlpha c with
    | true => exact h.local_letter hc hl s
    | false =>
      obtain ⟨h0, hn, hstop'⟩ := hstop
      rw [h.next hl, h.next hl]
      cases hm : u.mem (i + d) with
      | none =>
        refine ⟨.act (fun r => readInside_copy h0 hn r) fun _ => .ret ⟨i + d, h0, hn, hm⟩,
          fun hag => ?_⟩
        rw [hag (i + d) h0 hn, hm]
      | some b =>
        have hrest := ih hm hstop' (upd c s)
        refine ⟨.act (fun r => readInside_copy h0 hn r) fun _ => hrest.inside.mono fun r hr => ?_,
          fun hag => ?_⟩
        · cases r with
          | none => exact hr
          | some r =>
            obtain ⟨j, hj, hres⟩ := hr
            have hpos : i + d + d * (j : Int) = i + d * ((j + 1 : Nat) : Int) := by push_cast; ring
            rw [hpos] at hres
            exact ⟨j + 1, Nat.succ_le_succ hj, hres⟩
        · rw [hag (i + d) h0 hn, hm]
          simp only [hrest.same hag]

end

/-- What the first trim loop returns: the index of a letter, or nothing after a fault. -/
def FrontResult (n : Int) (u : UserBuf) (i : Int) : Option Int → Prop
  | some s => i ≤ s ∧ s < n ∧ u.Letter s
  | none => Faults n u

theorem trimFront_local {i p : Int} {c : UInt8} (hc : u.mem i = some c) (h0 : 0 ≤ i)
    (hip : i ≤ p) (hpn : p < n) (hstop : u.Stop p) :
    Local n u u' (trimFront u c i) (trimFront u' c i) (FrontResult n u i) := by
  obtain ⟨k, rfl⟩ := Int.le.dest hip
  have hahead : StopAhead n 1 u k i :=
    stopAhead (fun j _ _ => by omega) (by simpa using hstop)
  have hscan := @Scans.local _ n u u' _ _ _ _ _ trimFront_scans _ _ _ hc hahead ()
  refine hscan.mono fun r hr => ?_
  cases r with
  | none => exact hr
  | some s =>
    obtain ⟨j, hj, hl, _, _, hs⟩ := hr
    obtain rfl : s = i + 1 * j := hs
    exact ⟨by omega, by omega, hl⟩

/-- What the second trim loop returns: the index after a letter, or nothing after a fault. -/
def BackResult (n : Int) (u : UserBuf) (q e : Int) : Option Int → Prop
  | some e' => q < e' ∧ e' ≤ e ∧ u.Letter (e' - 1)
  | none => Faults n u

theorem trimBack_local {q e : Int} {c : UInt8} (hc : u.mem (e - 1) = some c) (h0 : 0 ≤ q)
    (hqe : q < e) (hen : e ≤ n) (hq : u.Letter q) :
    Local n u u' (trimBack u c e) (trimBack u' c e) (BackResult n u q e) := by
  obtain ⟨k, hk⟩ := Int.le.dest (show q ≤ e - 1 by omega)
  have hstop : u.Stop (e - 1 + -1 * k) := by
    obtain ⟨b, hb, hbl⟩ := hq
    intro b' hb'
    rw [show e - 1 + -1 * (k : Int) = q by omega, hb] at hb'
    cases hb'
    exact hbl
  have hahead : StopAhead n (-1) u k (e - 1) := stopAhead (fun j _ _ => by omega) hstop
  have hscan := @Scans.local _ n u u' _ _ _ _ _ trimBack_scans _ _ _ hc hahead ()
  simp only [Int.sub_add_cancel] at hscan
  refine hscan.mono fun r hr => ?_
  cases r with
  | none => exact hr
  | some e' =>
    obtain ⟨j, hj, hl, _, _, he⟩ := hr
    obtain rfl : e' = e - 1 + -1 * j + 1 := he
    exact ⟨by omega, by omega, by simpa using hl⟩

/-- What the inner loop returns: the index of a letter up to the stop `p`, or nothing. -/
def SkipResult (u : UserBuf) (i p : Int) : Option (UInt16 × Int × Bool) → Prop
  | some (_, i', _) => i ≤ i' ∧ i' ≤ p ∧ u.Letter i'
  | none => True

theorem skipIgnored_local {i p : Int} {c : UInt8} (hc : u.mem i = some c) (h0 : 0 ≤ i)
    (hip : i ≤ p) (hpn : p < n) (hstop : u.Stop p) (spaceFlag : Bool) :
    Local n u u' (skipIgnored u (charToMorse c) i spaceFlag)
      (skipIgnored u' (charToMorse c) i spaceFlag) (SkipResult u i p) := by
  obtain ⟨k, rfl⟩ := Int.le.dest hip
  have hahead : StopAhead n 1 u k i :=
    stopAhead (fun j _ _ => by omega) (by simpa using hstop)
  have hscan := @Scans.local _ n u u' _ _ _ _ _ skipIgnored_scans _ _ _ hc hahead spaceFlag
  refine hscan.mono fun r hr => ?_
  cases r with
  | none => trivial
  | some t =>
    obtain ⟨j, hj, hl, -, -, rfl⟩ := hr
    exact ⟨by omega, by omega, hl⟩

/-! ## The whole write -/

/-- Where the `for` loop runs: it has ended, or a stop `z` is ahead, which is a fault or the last
index of the loop. -/
structure Ahead (n : Int) (u : UserBuf) (z end_ curr : Int) : Prop where
  nonneg : 0 ≤ curr
  stop : u.Stop z
  lt : z < n
  ahead : curr ≤ z ∨ end_ ≤ curr
  last : u.mem z = none ∨ end_ = z + 1

/-- After a letter at `i` up to the stop, the loop has ended or the stop is still ahead. -/
theorem Ahead.next {z end_ curr i : Int} (h : Ahead n u z end_ curr) (hi : curr ≤ i) (hiz : i ≤ z)
    (hl : u.Letter i) : Ahead n u z end_ (i + 1) := by
  obtain ⟨b, hb, -⟩ := hl
  refine ⟨by have := h.nonneg; omega, h.stop, h.lt, ?_, h.last⟩
  rcases h.last with hz | hz
  · have : i ≠ z := by rintro rfl; rw [hb] at hz; cases hz
    exact .inl (by omega)
  · omega

theorem writeLoop_local {start end_ z curr : Int} {spaceFlag : Bool} (k : Nat)
    (h : Ahead n u z end_ curr) :
    Local n u u' (writeLoop u start end_ k curr spaceFlag)
      (writeLoop u' start end_ k curr spaceFlag) fun _ => True := by
  induction k generalizing curr spaceFlag with
  | zero => exact .ret trivial
  | succ k ih =>
    unfold writeLoop
    by_cases hlt : curr < end_
    · rw [if_pos hlt, if_pos hlt]
      have h0 := h.nonneg
      have hz := h.lt
      have hcz : curr ≤ z := h.ahead.resolve_right (by omega)
      refine (Local.copy h0 (by omega)).bind fun r hr => ?_
      cases r with
      | none => exact .ret trivial
      | some c =>
        refine (skipIgnored_local hr.symm h0 hcz hz h.stop spaceFlag).bind fun t ht => ?_
        cases t with
        | none => exact .ret trivial
        | some t =>
          refine (Local.of_inside (gap_inside _ _)).bind fun ok _ => ?_
          split
          · exact (Local.of_inside (flashLoop_inside 16 _)).bind fun _ _ =>
              ih (h.next ht.1 ht.2.1 ht.2.2)
          · exact .ret trivial
    · rw [if_neg hlt, if_neg hlt]
      exact .ret trivial

/-- What `trim_spaces` leaves behind: the loop starts ahead of a stop. -/
def TrimResult (n : Int) (u : UserBuf) : Option (Int × Int) → Prop
  | some (start, end_) => ∃ z, Ahead n u z end_ start
  | none => Faults n u

theorem trim_spaces_local {p : Int} {c : UInt8} (hc : u.mem 0 = some c) (h0 : 0 ≤ p)
    (hpn : p < n) (hstop : u.Stop p) :
    Local n u u' (trim_spaces u c 0 n) (trim_spaces u' c 0 n) (TrimResult n u) := by
  unfold trim_spaces
  refine (trimFront_local hc le_rfl h0 hpn hstop).bind fun s hs => ?_
  cases s with
  | none => exact .ret hs
  | some s =>
    refine (Local.copy (by omega) (by omega)).bind fun r hr => ?_
    cases r with
    | none => exact .ret ⟨n - 1, by omega, by omega, hr.symm⟩
    | some b =>
      obtain ⟨hs0, hsn, hletter⟩ := hs
      refine (trimBack_local hr.symm hs0 hsn le_rfl hletter).bind fun e he => ?_
      cases e with
      | none => exact .ret he
      | some e =>
        obtain ⟨hse, hen, b', hb', hbl'⟩ := he
        refine .ret ⟨e - 1, hs0, fun x hx => ?_, by omega, by omega, by omega⟩
        rw [hb'] at hx
        cases hx
        exact hbl'

/-- With a stop inside the buffer, a write reads only the buffer and depends on nothing else. -/
theorem my_write_local {i : Int} (h0 : 0 ≤ i) (hi : i < u.count) (hstop : u.Stop i)
    (hcount : u'.count = u.count) (ppos : Int) :
    Local u.count u u' (my_write u ppos) (my_write u' ppos) fun _ => True := by
  have hahead : ∀ t, TrimResult u.count u t →
      ∃ z, Ahead u.count u z (t.getD (0, (u.count : Int))).2 (t.getD (0, (u.count : Int))).1 := by
    intro t ht
    cases t with
    | none =>
      obtain ⟨z, hz0, hzn, hz⟩ := ht
      exact ⟨z, le_rfl, fun b hb => absurd hb (by rw [hz]; simp), hzn, .inl hz0, .inl hz⟩
    | some t => exact ht
  rw [my_write, my_write, int_end, int_end, hcount]
  refine (Local.copy le_rfl (by omega)).bind fun r hr => ?_
  cases r with
  | none => exact .ret trivial
  | some c =>
    refine (trim_spaces_local hr.symm h0 hi hstop).bind fun t ht => ?_
    obtain ⟨z, hz⟩ := hahead t ht
    refine (writeLoop_local _ hz).bind fun ok _ => ?_
    split
    · refine .of_inside ((led_inside _).bind fun _ _ => (put_inside _).bind fun ok _ => ?_)
      split <;> exact .ret trivial
    · exact .ret trivial

/-! ## No stop -/

@[simp] theorem copied_append (xs ys : List (Event Call Call.Answer)) :
    copied (xs ++ ys) = copied xs ++ copied ys := List.filterMap_append

/-- With no stop up to the end `n`, the first trim loop reads past it. -/
theorem trimFront_passes {i : Int} {c : UInt8} (hin : i < n)
    (hno : ∀ j, i ≤ j → j < n → ∃ b, u.mem j = some b ∧ isAlpha b = false)
    (hc : u.mem i = some c) {evs : List (Event Call Call.Answer)} {r : Option Int}
    (ht : Trace (trimFront u c i) evs r) : n ∈ copied evs := by
  obtain ⟨d, hd⟩ : ∃ d, (n - 1 - i).toNat = d := ⟨_, rfl⟩
  have hna : ∀ {i c}, i < n → (∀ j, i ≤ j → j < n → ∃ b, u.mem j = some b ∧ isAlpha b = false) →
      u.mem i = some c → isAlpha c = false := by
    intro i c hin hno hc
    obtain ⟨b, hb, hbl⟩ := hno i le_rfl hin
    rw [hc] at hb
    cases hb
    exact hbl
  induction d generalizing i c evs with
  | zero =>
    obtain rfl : n = i + 1 := by omega
    replace ht := trimFront_scans.next (s := ()) (hna hin hno hc) ▸ ht
    obtain ⟨_, evs', rfl, -⟩ := trace_act.mp ht
    exact List.mem_cons_self
  | succ d ih =>
    replace ht := trimFront_scans.next (s := ()) (hna hin hno hc) ▸ ht
    obtain ⟨_, evs', rfl, ht'⟩ := trace_act.mp ht
    obtain ⟨b, hb, -⟩ := hno (i + 1) (by omega) (by omega)
    rw [hb] at ht'
    exact List.mem_cons_of_mem _
      (ih (by omega) (fun j hj => hno j (by omega)) hb ht' (by omega))

/-- With no stop inside the buffer, every write reads the byte after it. -/
theorem my_write_passes {ppos : Int}
    (hno : ∀ j : Int, 0 ≤ j → j < u.count → ∃ b, u.mem j = some b ∧ isAlpha b = false)
    {evs : List (Event Call Call.Answer)} {r : Int × Int} (ht : Trace (my_write u ppos) evs r) :
    (u.count : Int) ∈ copied evs := by
  unfold my_write at ht
  obtain ⟨xs, ys, c, rfl, hcopy, hrest⟩ := trace_bind.mp ht
  obtain ⟨rfl, rfl⟩ := trace_copy.mp hcopy
  rw [copied_append]
  rcases Nat.eq_zero_or_pos u.count with h0 | hpos
  · rw [h0]
    exact List.mem_append_left _ List.mem_cons_self
  · obtain ⟨c, hc, -⟩ := hno 0 le_rfl (by omega)
    rw [hc] at hrest
    obtain ⟨zs, _, t, rfl, htrim, -⟩ := trace_bind.mp hrest
    obtain ⟨ws, _, s, rfl, hfront, -⟩ := trace_bind.mp htrim
    have := trimFront_passes (by omega) hno hc hfront
    simp [this]

/-- **A write reads only its buffer exactly when the buffer has a letter or faults.**  Then what
it does depends only on the bytes of the buffer. -/
theorem write_reads_inside_iff (u : UserBuf) (ppos : Int) :
    ((∀ evs r, Trace (my_write u ppos) evs r → ∀ i ∈ copied evs, 0 ≤ i ∧ i < u.count) ∧
      ∀ u' : UserBuf, u'.count = u.count → (∀ i : Int, 0 ≤ i → i < u.count → u'.mem i = u.mem i) →
        my_write u' ppos = my_write u ppos) ↔
    ∃ i : Int, 0 ≤ i ∧ i < u.count ∧ ∀ b, u.mem i = some b → isAlpha b = true := by
  constructor
  · rintro ⟨hreads, -⟩
    by_contra hnone
    push Not at hnone
    have ht := (run_trace accept (my_write u ppos) ()).1
    have hmem := my_write_passes (fun j h0 hj => by simpa using hnone j h0 hj) ht
    exact absurd (hreads _ _ ht _ hmem).2 (lt_irrefl _)
  · rintro ⟨i, h0, hi, hstop⟩
    refine ⟨fun evs r ht j hj => ?_, fun u' hcount hag =>
      (my_write_local h0 hi hstop hcount ppos).same hag⟩
    obtain ⟨ev, hev, hcopied⟩ := List.mem_filterMap.mp hj
    obtain ⟨e, a⟩ := ev
    cases e with
    | copy_from_user k =>
      cases hcopied
      exact ((my_write_local h0 hi hstop rfl ppos).inside _ _ ht).1 _ hev j rfl
    | led_trigger_event full => cases hcopied
    | msleep ms => cases hcopied
    | kfifo_put c => cases hcopied

/-- One newline, written from a longer line: the byte after the buffer is a letter. -/
def loneNewline : UserBuf where
  count := 1
  mem i := if i = 0 then some newline else if i = 1 then some chA else none
  lo := 0
  hi := 2
  mem_bound := by
    intro i b h
    split_ifs at h <;> omega
  count_le := by decide

/-- The write of the lone newline sends the letter after it. -/
theorem lone_newline_reads_outside :
    (¬ ∀ (u : UserBuf) (ppos : Int) (evs : List (Event Call Call.Answer)) (r : Int × Int),
        Trace (my_write u ppos) evs r → ∀ i ∈ copied evs, 0 ≤ i ∧ i < u.count) ∧
      copied (run accept (my_write loneNewline 0) ()).events = [0, 1, 0, -1, 0, 1] ∧
      (puts (outs (run accept (my_write loneNewline 0) ()).events)).map (·.1) =
        [blank, dot, dash, newline] := by
  have hrun : copied (run accept (my_write loneNewline 0) ()).events = [0, 1, 0, -1, 0, 1] := by
    decide +kernel
  refine ⟨fun h => ?_, hrun, by decide +kernel⟩
  have h1 := h loneNewline 0 _ _ (run_trace accept (my_write loneNewline 0) ()).1 1
    (by rw [hrun]; simp)
  exact absurd h1.2 (by decide)

end Morse
