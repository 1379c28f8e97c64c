import Cmpt433.Sampler.UdpListen

/-!
# The datagrams of a list (`work/as2/udpListen.c`)

`sendNumList` cuts a list into datagrams of one element and up to 200 more, and composes each of
them in `messageTx`, a number at a time by way of `temp`.

* `sendNumList_sends` — the numbers sent are the list, in `⌈n / 201⌉` datagrams.
* `compose_eq` — which messages are composed without an overflow.
* `fits_iff` — the 1024 bytes of `messageTx` are enough for 145 numbers.
-/

set_option autoImplicit false

namespace UdpListen

open CheckedArray CString Interaction Udp

section

variable {V : Type}

/-- A list in the thread's own memory. -/
def own (ys : List V) : NumList V := fun i => .ret (read ys i)

/-- Answers to accesses that `sendNumList` never makes. -/
def noAnswer : (e : Call V) → e.Answer
  | .lock | .unlock | .sendto _ => ()
  | .recent => (0 : Nat)
  | .arraySize | .recentIndex | .historyCount => (0 : Int)
  | .element _ _ => none

theorem rows_length (j : Nat) (ys : List V) : (rows j ys).length = (ys.length + 200) / 201 := by
  fun_induction rows j ys with
  | case1 => simp
  | case2 j v vs ih =>
    simp only [List.length_cons, List.length_drop] at ih ⊢
    omega

theorem sendNumList_own_sends (ys : List V) :
    Always (fun ev => ∃ msg, ev.1 = .sendto msg) (sendNumList (own ys) ys.length)
      fun _ => True :=
  sendNumList_always (fun _ => .ret trivial) (fun _ _ _ => ⟨_, rfl⟩) _

variable [Zero V]

/-- A list in the thread's own memory is sent in one way. -/
theorem sendNumList_own (ys : List V) :
    ∃ evs, Trace (sendNumList (own ys) ys.length) evs .sent ∧
      (∀ evs' d, Trace (sendNumList (own ys) ys.length) evs' d → evs' = evs ∧ d = .sent) ∧
      messages evs = (rows 0 ys).map .numbers := by
  have hread : ∀ i : Int, 0 ≤ i → i < ys.length → read ys i = some ((read ys i).getD 0) := by
    intro i h0 hi
    obtain ⟨v, hv⟩ := read_inside h0 hi
    rw [hv]; rfl
  obtain ⟨evs, ho, hmessages⟩ := @sendNumList_oracle V noAnswer (own ys)
    (fun i => (read ys i).getD 0) ys.length fun i h0 hi =>
      ⟨[], by rw [own, ← hread i h0 hi]; exact Oracle.ret _, rfl⟩
  refine ⟨evs, ho.1, fun evs' d ht => Oracle.unique ⟨ht, fun ev hev => ?_⟩ ho, ?_⟩
  · obtain ⟨e, r⟩ := ev
    obtain ⟨msg, rfl⟩ := (sendNumList_own_sends ys _ _ ht).1 _ hev
    rfl
  · rw [hmessages, ← take_eq_between le_rfl hread, List.take_length]

/-- **Every element is sent once and in order**, 201 of them in a datagram. -/
theorem sendNumList_sends (ys : List V) :
    ∃ evs, Trace (sendNumList (own ys) ys.length) evs .sent ∧
      (∀ evs' d, Trace (sendNumList (own ys) ys.length) evs' d → evs' = evs ∧ d = .sent) ∧
      numbers evs = ys ∧ (messages evs).length = ys.length ⌈/⌉ 201 := by
  obtain ⟨evs, ht, hunique, hmessages⟩ := sendNumList_own ys
  refine ⟨evs, ht, hunique, numbers_of_rows hmessages, ?_⟩
  rw [hmessages, List.length_map, rows_length, Nat.ceilDiv_eq_add_pred_div]
  rfl

end

/-! ## How long the datagrams get -/

section

variable {V : Type} (fmt : V → Bytes)

/-- What a piece adds to the message. -/
def pieceText : Piece V → Bytes
  | .first v => fmt v ++ lit "  "
  | .item v => fmt v ++ lit ", "
  | .newline => lit "\n"

/-- The number of its characters when a number is formatted to five. -/
def pieceWidth : Piece V → Nat
  | .first _ => 7
  | .item _ => 7
  | .newline => 1

def width (pieces : List (Piece V)) : Nat := (pieces.map pieceWidth).sum

/-- `%5.3f` makes five characters of the number. -/
def FiveChars (s : Bytes) : Prop := s.length = 5 ∧ 0 ∉ s

variable {fmt}

theorem cstring_eq_self {s : Bytes} (h : 0 ∉ s) : cstring s = s := by
  rw [cstring, List.takeWhile_eq_self_iff]
  intro b hb
  simp only [ne_eq, decide_not, Bool.not_eq_eq_eq_not, Bool.not_true, decide_eq_false_iff_not]
  rintro rfl
  exact h hb

theorem pieceText_fiveChars {p : Piece V} (h : ∀ v, p.number = some v → FiveChars (fmt v)) :
    (pieceText fmt p).length = pieceWidth p ∧ 0 ∉ pieceText fmt p := by
  cases p with
  | newline => exact ⟨rfl, by simp [pieceText, lit]⟩
  | first v =>
    obtain ⟨hlen, hzero⟩ := h v rfl
    exact ⟨by simp [pieceText, pieceWidth, hlen, lit], by simp [pieceText, hzero, lit]⟩
  | item v =>
    obtain ⟨hlen, hzero⟩ := h v rfl
    exact ⟨by simp [pieceText, pieceWidth, hlen, lit], by simp [pieceText, hzero, lit]⟩

variable (fmt) in
/-- The bytes of a datagram with numbers. -/
def datagram (pieces : List (Piece V)) : Bytes := cstring (pieces.foldl (withPiece fmt) [])

variable (fmt) in
/-- Every datagram of the list fits in `messageTx`. -/
def ListFits (ys : List V) : Prop :=
  ∀ pieces ∈ rows 0 ys, (datagram fmt pieces).length < MSG_MAX_LEN

instance (ys : List V) : Decidable (ListFits fmt ys) :=
  inferInstanceAs (Decidable (∀ pieces ∈ rows 0 ys, _))

/-- Appending makes no string shorter. -/
theorem length_le_appended {pieces : List (Piece V)} (hitem : ∀ p ∈ pieces, ∀ v, p ≠ .first v)
    (tx : Bytes) : (cstring tx).length ≤ (cstring (pieces.foldl (withPiece fmt) tx)).length := by
  induction pieces generalizing tx with
  | nil => rfl
  | cons p pieces ih =>
    refine le_trans ?_ (ih (fun q hq => hitem q (List.mem_cons_of_mem _ hq)) _)
    cases p with
    | first v => exact absurd rfl (hitem _ List.mem_cons_self v)
    | item v => simp [withPiece]
    | newline => simp [withPiece]

/-- A message whose first piece is the only one that is copied is composed exactly when the whole
of it fits. -/
theorem foldlM_putPiece (rest : List (Piece V)) (hitem : ∀ p ∈ rest, ∀ v, p ≠ .first v) :
    ∀ (tx : Bytes) (p : Piece V), (p :: rest).foldlM (putPiece fmt) tx =
      if (cstring ((p :: rest).foldl (withPiece fmt) tx)).length < MSG_MAX_LEN then
        some ((p :: rest).foldl (withPiece fmt) tx)
      else none := by
  induction rest with
  | nil =>
    intro tx p
    rw [List.foldlM_cons, List.foldl_cons, List.foldl_nil, putPiece]
    split <;> rfl
  | cons q rest ih =>
    intro tx p
    have ih := ih (fun q hq => hitem q (List.mem_cons_of_mem _ hq)) (withPiece fmt tx p) q
    have hgrows := @length_le_appended V fmt _ hitem (withPiece fmt tx p)
    rw [List.foldlM_cons, List.foldl_cons]
    by_cases hroom : (cstring (withPiece fmt tx p)).length < MSG_MAX_LEN
    · rw [putPiece, if_pos hroom]
      exact ih
    · rw [putPiece, if_neg hroom, if_neg (by omega)]
      rfl

/-- Pieces that are appended. -/
theorem cstring_appended {pieces : List (Piece V)} (hitem : ∀ p ∈ pieces, ∀ v, p ≠ .first v)
    (hzero : ∀ p ∈ pieces, 0 ∉ pieceText fmt p) (tx : Bytes) :
    cstring (pieces.foldl (withPiece fmt) tx) =
      cstring tx ++ (pieces.map (pieceText fmt)).flatten := by
  induction pieces generalizing tx with
  | nil => simp
  | cons p pieces ih =>
    have hput : withPiece fmt tx p = strcat tx (pieceText fmt p) := by
      cases p with
      | first v => exact absurd rfl (hitem _ List.mem_cons_self v)
      | item v => rfl
      | newline => rfl
    rw [List.foldl_cons, ih (fun q hq => hitem q (List.mem_cons_of_mem _ hq))
      (fun q hq => hzero q (List.mem_cons_of_mem _ hq)), hput, cstring_strcat,
      cstring_eq_self (hzero p List.mem_cons_self), List.map_cons, List.flatten_cons,
      List.append_assoc]

/-- A message is the text of its pieces, whatever the buffer held. -/
theorem composed_eq {v : V} {rest : List (Piece V)} (hitem : ∀ p ∈ rest, ∀ w, p ≠ .first w)
    (hzero : ∀ p ∈ Piece.first v :: rest, 0 ∉ pieceText fmt p) (tx : Bytes) :
    cstring ((Piece.first v :: rest).foldl (withPiece fmt) tx) =
      ((Piece.first v :: rest).map (pieceText fmt)).flatten := by
  have hrest := @cstring_appended V fmt rest hitem
    (fun p hp => hzero p (List.mem_cons_of_mem _ hp)) (strcpy tx (pieceText fmt (.first v)))
  rw [cstring_strcpy, cstring_eq_self (hzero _ List.mem_cons_self)] at hrest
  exact hrest

/-- A message is as long as its pieces are wide. -/
theorem composed_length {v : V} {rest : List (Piece V)} (hitem : ∀ p ∈ rest, ∀ w, p ≠ .first w)
    (hfmt : ∀ p ∈ Piece.first v :: rest, ∀ w, p.number = some w → FiveChars (fmt w)) (tx : Bytes) :
    (cstring ((Piece.first v :: rest).foldl (withPiece fmt) tx)).length =
      width (.first v :: rest) := by
  have htext := fun p hp => pieceText_fiveChars (hfmt p hp)
  rw [composed_eq hitem fun p hp => (htext p hp).2, List.length_flatten, List.map_map, width]
  congr 1
  exact List.map_congr_left fun p hp => (htext p hp).1

theorem row_items (i : Nat) (vs : List V) : ∀ p ∈ row i vs, ∀ w, p ≠ .first w := by
  induction vs generalizing i with
  | nil => simp [row]
  | cons v vs ih =>
    intro p hp
    rw [row, List.mem_append] at hp
    rcases hp with hp | hp
    · rintro w rfl
      split at hp <;> simp at hp
    · exact ih _ p hp

/-- Every datagram starts with the one piece that is copied. -/
theorem rows_shape (j : Nat) (ys : List V) : ∀ pieces ∈ rows j ys,
    ∃ v rest, pieces = .first v :: rest ∧ ∀ p ∈ rest, ∀ w, p ≠ .first w := by
  fun_induction rows j ys with
  | case1 => simp
  | case2 j v vs ih =>
    intro pieces hmem
    rcases List.mem_cons.mp hmem with rfl | hmem
    · refine ⟨v, row (j + 1) (vs.take 200) ++ [.newline], rfl, fun p hp => ?_⟩
      rcases List.mem_append.mp hp with hp | hp
      · exact row_items _ _ p hp
      · rw [List.mem_singleton.mp hp]
        simp
    · exact ih pieces hmem

/-- Every datagram ends with a newline. -/
theorem rows_newline (j : Nat) (ys : List V) :
    ∀ pieces ∈ rows j ys, ∃ ps, pieces = ps ++ [.newline] := by
  fun_induction rows j ys with
  | case1 => simp
  | case2 j v vs ih =>
    intro pieces hmem
    rcases List.mem_cons.mp hmem with rfl | hmem
    · exact ⟨_, rfl⟩
    · exact ih pieces hmem

/-- A datagram is composed exactly when it fits. -/
theorem compose_eq {j : Nat} {ys : List V} {pieces : List (Piece V)} (hmem : pieces ∈ rows j ys) :
    (compose fmt [] (.numbers pieces)).map cstring =
      if (datagram fmt pieces).length < MSG_MAX_LEN then some (datagram fmt pieces) else none := by
  obtain ⟨v, rest, rfl, hitem⟩ := rows_shape j ys pieces hmem
  rw [compose, foldlM_putPiece rest hitem, datagram]
  split <;> rfl

/-- A list of datagrams that all fit is sent. -/
theorem sendAll_fits {j : Nat} {ys : List V} {l : List (List (Piece V))} (hl : l ⊆ rows j ys)
    (hfits : ∀ pieces ∈ l, (datagram fmt pieces).length < MSG_MAX_LEN) :
    sendAll fmt (l.map .numbers) = (l.map (datagram fmt), false) := by
  induction l with
  | nil => rfl
  | cons pieces l ih =>
    obtain ⟨hmem, hsub⟩ := List.cons_subset.mp hl
    obtain ⟨hlen, hrest⟩ := List.forall_mem_cons.mp hfits
    have hcompose := @compose_eq V fmt j ys pieces hmem
    rw [if_pos hlen, Option.map_eq_some_iff] at hcompose
    obtain ⟨tx, htx, hdatagram⟩ := hcompose
    rw [List.map_cons, List.map_cons, sendAll, htx, ih hsub hrest, ← hdatagram]

/-- A list with a datagram that is too long is a fault. -/
theorem sendAll_overflow {j : Nat} {ys : List V} {l : List (List (Piece V))} (hl : l ⊆ rows j ys)
    (hlong : ¬ ∀ pieces ∈ l, (datagram fmt pieces).length < MSG_MAX_LEN) :
    (sendAll fmt (l.map .numbers)).2 = true := by
  induction l with
  | nil => exact absurd (by simp) hlong
  | cons pieces l ih =>
    obtain ⟨hmem, hsub⟩ := List.cons_subset.mp hl
    have hcompose := @compose_eq V fmt j ys pieces hmem
    rw [List.map_cons, sendAll]
    cases htx : compose fmt [] (.numbers pieces) with
    | none => rfl
    | some tx =>
      refine ih hsub fun hrest => hlong (List.forall_mem_cons.mpr ⟨?_, hrest⟩)
      by_contra hlen
      rw [htx, if_neg hlen] at hcompose
      cases hcompose

theorem rows_mem {j : Nat} {ys : List V} {pieces : List (Piece V)} (h : pieces ∈ rows j ys)
    {p : Piece V} (hp : p ∈ pieces) {v : V} (hv : p.number = some v) : v ∈ ys := by
  rw [← rows_numbers j ys]
  exact List.mem_flatMap.mpr ⟨pieces, h, List.mem_filterMap.mpr ⟨p, hp, hv⟩⟩

/-- Each element takes seven characters, each index that 20 divides one more. -/
theorem row_width (i : Nat) (vs : List V) :
    width (row i vs) = 7 * vs.length + ((i + vs.length + 19) / 20 - (i + 19) / 20) := by
  induction vs generalizing i with
  | nil => simp [row, width]
  | cons v vs ih =>
    have happend : width (row i (v :: vs)) =
        (if i % 20 = 0 then 8 else 7) + width (row (i + 1) vs) := by
      rw [row, width, List.map_append, List.sum_append]
      split <;> rfl
    rw [happend, ih, List.length_cons]
    split <;> omega

/-- The size of `temp`. -/
def TEMP_LEN : Nat := 317

/-- While the list is sent, the string in `messageTx` is never longer than the buffer, nor is a
number formatted in `temp`. -/
def FitsBuffers (fmt : V → Bytes) (ys : List V) : Prop :=
  ∀ evs d, Trace (sendNumList (own ys) ys.length) evs d →
    ∀ pieces, Msg.numbers pieces ∈ messages evs →
      (∀ pre, pre <+: pieces → pre ≠ [] → ∀ tx,
        (cstring (pre.foldl (withPiece fmt) tx)).length + 1 ≤ MSG_MAX_LEN) ∧
      ∀ p ∈ pieces, p ≠ .newline → (pieceText fmt p).length + 1 ≤ TEMP_LEN

theorem pieceWidth_le (p : Piece V) : pieceWidth p ≤ 7 := by cases p <;> simp [pieceWidth]

/-- The widest point of a datagram is its end. -/
theorem fits_iff_width [Zero V] {ys : List V} (hfmt : ∀ v ∈ ys, FiveChars (fmt v)) :
    FitsBuffers fmt ys ↔ ∀ pieces ∈ rows 0 ys, width pieces + 1 ≤ MSG_MAX_LEN := by
  obtain ⟨evs, ht, hunique, hmessages⟩ := sendNumList_own ys
  constructor
  · intro hfits pieces hmem
    obtain ⟨v, rest, rfl, hitem⟩ := rows_shape 0 ys pieces hmem
    have hwhole := (hfits evs .sent ht _ (by rw [hmessages]; exact List.mem_map_of_mem hmem)).1 _
      List.prefix_rfl (by simp) []
    rwa [composed_length hitem fun p hp w hw => hfmt w (rows_mem hmem hp hw)] at hwhole
  · intro hwidth evs' d ht' pieces hmem
    rw [(hunique evs' d ht').1, hmessages, List.mem_map] at hmem
    obtain ⟨pieces', hmem, heq⟩ := hmem
    obtain rfl := Msg.numbers.inj heq
    have hfive : ∀ p ∈ pieces', ∀ w, p.number = some w → FiveChars (fmt w) :=
      fun p hp w hw => hfmt w (rows_mem hmem hp hw)
    refine ⟨fun pre hpre hne tx => ?_, fun p hp _ => ?_⟩
    · obtain ⟨v, rest, rfl, hitem⟩ := rows_shape 0 ys pieces' hmem
      obtain ⟨q, pre, rfl⟩ := List.exists_cons_of_ne_nil hne
      obtain ⟨rfl, htail⟩ := List.cons_prefix_cons.mp hpre
      rw [composed_length (fun p hp => hitem p (htail.subset hp))
        fun p hp => hfive p (hpre.subset hp)]
      have hle : width (.first v :: pre) ≤ width (.first v :: rest) :=
        (hpre.sublist.map pieceWidth).sum_le_sum fun _ _ => Nat.zero_le _
      have := hwidth _ hmem
      omega
    · have hlen := (pieceText_fiveChars (hfive p hp)).1
      have hle := pieceWidth_le p
      unfold TEMP_LEN
      omega

/-- A list of at most 201 elements is one datagram. -/
theorem rows_single {j : Nat} {v : V} {vs : List V} (h : vs.length ≤ 200) :
    rows j (v :: vs) = [.first v :: row (j + 1) vs ++ [.newline]] := by
  rw [rows, List.take_of_length_le h, List.drop_of_length_le h, rows]

theorem datagram_width (j : Nat) (v : V) (vs : List V) :
    width (.first v :: row (j + 1) vs ++ [.newline]) =
      8 + 7 * vs.length + ((j + vs.length + 20) / 20 - (j + 20) / 20) := by
  have hsum : width (.first v :: row (j + 1) vs ++ [.newline]) =
      7 + width (row (j + 1) vs) + 1 := by
    rw [width, List.cons_append, List.map_cons, List.map_append, List.sum_cons, List.sum_append,
      ← Nat.add_assoc]
    rfl
  rw [hsum, row_width, Nat.add_right_comm j 1 vs.length]
  omega

/-- The widths that 145 numbers need. -/
theorem width_iff_length (ys : List V) :
    (∀ pieces ∈ rows 0 ys, width pieces + 1 ≤ MSG_MAX_LEN) ↔ ys.length ≤ 145 := by
  cases ys with
  | nil => simp [rows]
  | cons v vs =>
    rw [List.length_cons]
    constructor
    · intro hwidth
      by_contra hlong
      have hfirst := hwidth _ (by rw [rows]; exact List.mem_cons_self)
      rw [datagram_width, List.length_take, MSG_MAX_LEN] at hfirst
      omega
    · intro hshort pieces hmem
      rw [rows_single (by omega), List.mem_singleton] at hmem
      rw [hmem, datagram_width, MSG_MAX_LEN]
      omega

/-- The reply buffer is as long as 145 numbers need. -/
theorem fits_iff_length [Zero V] {ys : List V} (hfmt : ∀ v ∈ ys, FiveChars (fmt v)) :
    FitsBuffers fmt ys ↔ ys.length ≤ 145 :=
  (fits_iff_width hfmt).trans (width_iff_length ys)

theorem datagram_length {j : Nat} {ys : List V} (hfmt : ∀ v ∈ ys, FiveChars (fmt v))
    {pieces : List (Piece V)} (hmem : pieces ∈ rows j ys) :
    (datagram fmt pieces).length = width pieces := by
  obtain ⟨v, rest, rfl, hitem⟩ := rows_shape j ys pieces hmem
  exact composed_length hitem (fun p hp w hw => hfmt w (rows_mem hmem hp hw)) []

/-- **No datagram overflows exactly for the lists of at most 145 numbers.** -/
theorem listFits_iff_length {ys : List V} (hfmt : ∀ v ∈ ys, FiveChars (fmt v)) :
    ListFits fmt ys ↔ ys.length ≤ 145 := by
  rw [← width_iff_length ys, ListFits]
  refine forall₂_congr fun pieces hmem => ?_
  rw [datagram_length hfmt hmem, Nat.succ_le_iff]

end

/-- `%5.3f` makes five characters of every voltage of the light sensor. -/
def Formats (fmt : ℚ → Bytes) : Prop := ∀ v, 0 ≤ v → v ≤ 9 / 5 → FiveChars (fmt v)

/-- **The buffers are large enough exactly for the lists of at most 145 voltages.** -/
theorem fits_iff {fmt : ℚ → Bytes} (hfmt : Formats fmt) {ys : List ℚ}
    (hys : ∀ v ∈ ys, 0 ≤ v ∧ v ≤ 9 / 5) : FitsBuffers fmt ys ↔ ys.length ≤ 145 :=
  fits_iff_length fun v hv => hfmt v (hys v hv).1 (hys v hv).2

def digit (n : Nat) : UInt8 := (48 + n % 10).toUInt8

/-- `%5.3f` of a number from 0 up to 10, rounded to the nearest. -/
def fixed3 (v : ℚ) : Bytes :=
  let m := (1000 * v + 1 / 2).floor.toNat
  [digit (m / 1000), 46, digit (m / 100), digit (m / 10), digit m]

theorem digit_ne_zero (n : Nat) : digit n ≠ 0 := by
  have hlt : n % 10 < 10 := Nat.mod_lt _ (by decide)
  unfold digit
  interval_cases n % 10 <;> decide

theorem fixed3_formats : Formats fixed3 := by
  intro v _ _
  refine ⟨rfl, ?_⟩
  simp only [fixed3, List.mem_cons, List.not_mem_nil, or_false, not_or]
  exact ⟨(digit_ne_zero _).symm, by decide, (digit_ne_zero _).symm, (digit_ne_zero _).symm,
    (digit_ne_zero _).symm⟩

theorem fits_two : FitsBuffers fixed3 [3 / 2, 1 / 4] :=
  (fits_iff fixed3_formats (by norm_num)).mpr (by decide)

/-- 146 numbers make a message of 1030 characters. -/
theorem long_list_overflows : ¬ ∀ (fmt : ℚ → Bytes) (ys : List ℚ), Formats fmt →
    (∀ v ∈ ys, 0 ≤ v ∧ v ≤ 9 / 5) → FitsBuffers fmt ys := by
  intro hall
  have hone : ∀ v ∈ List.replicate 146 (1 : ℚ), 0 ≤ v ∧ v ≤ 9 / 5 := by
    intro v hv
    rw [List.eq_of_mem_replicate hv]
    norm_num
  have hfits := hall fixed3 _ fixed3_formats hone
  rw [fits_iff_length fun v hv => fixed3_formats v (hone v hv).1 (hone v hv).2,
    List.length_replicate] at hfits
  exact absurd hfits (by decide)

end UdpListen
