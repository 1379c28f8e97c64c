import Cmpt433.Sampler.GetRequest

/-!
# Repeating the last command (`work/as2/udpListen.c`)

A datagram of one byte is answered from `prevMsg`, the copy that `strcpy` made of the last other
datagram, and sets a flag for which the next iteration receives nothing.

* `iterations_eq` — that iteration loses no datagram.
* `handleRequest_valid_iff` — which requests make no invalid access.
* `enter_repeats_iff` — the reply is the one that the command itself would get, unless a request has
  left its memory or `get` is scanned beyond its NUL, which is not copied.
-/

set_option autoImplicit false

namespace UdpListen

open CString Interaction Runs Udp Sampler

/-! ## The loop -/

section

variable {V : Type} [Zero V] [DecidableEq V] (fmt : V → Bytes)

/-- `while (running)`: the replies of so many iterations, up to a fault.  With `enterPressed` set
nothing is received, and with no datagram pending `recvfrom` does not return. -/
def iterations : Nat → Buffers → List (Arrival V) → List Reply
  | 0, _, _ => []
  | fuel + 1, b, pending =>
    if b.enterPressed then iterations fuel { b with enterPressed := false } pending
    else match pending with
      | [] => []
      | a :: pending =>
        let (r, b) := receive fmt b a
        r :: if r.running && !r.fault then iterations fuel b pending else []

/-- One reply for each datagram, up to the one that ends the server or is a fault. -/
def answers : Buffers → List (Arrival V) → List Reply
  | _, [] => []
  | b, a :: pending =>
    let (r, b) := serve fmt b a
    r :: if r.running && !r.fault then answers b pending else []

/-- An iteration without the flag receives the next datagram. -/
theorem iterations_receive (fuel : Nat) (b : Buffers) (a : Arrival V) (pending : List (Arrival V)) :
    iterations fmt (fuel + 1) { b with enterPressed := false } (a :: pending) =
      (serve fmt b a).1 ::
        if (serve fmt b a).1.running && !(serve fmt b a).1.fault then
          iterations fmt fuel (serve fmt b a).2 pending
        else [] :=
  rfl

/-- The flag takes one iteration more. -/
theorem iterations_flag (fuel : Nat) (b : Buffers) (pending : List (Arrival V)) :
    iterations fmt (b.enterPressed.toNat + fuel) b pending =
      iterations fmt fuel { b with enterPressed := false } pending := by
  obtain ⟨messageRx, messageTx, prevMsg, enterPressed⟩ := b
  cases enterPressed with
  | false => rw [Bool.toNat_false, Nat.zero_add]
  | true =>
    rw [Bool.toNat_true, Nat.add_comm]
    rfl

theorem iterations_nil (fuel : Nat) (b : Buffers) : iterations fmt fuel b [] = [] := by
  induction fuel generalizing b with
  | zero => rfl
  | succ fuel ih =>
    unfold iterations
    split
    · exact ih _
    · rfl

/-- **No datagram is skipped**: two iterations for each of them are enough. -/
theorem iterations_eq {fuel : Nat} {b : Buffers} {pending : List (Arrival V)}
    (hfuel : 2 * pending.length ≤ fuel) :
    iterations fmt fuel b pending = answers fmt b pending := by
  induction pending generalizing fuel b with
  | nil => exact iterations_nil fmt fuel b
  | cons a pending ih =>
    rw [List.length_cons] at hfuel
    have hflag := b.enterPressed.toNat_le
    obtain ⟨k, rfl⟩ : ∃ k, fuel = b.enterPressed.toNat + (k + 1) :=
      ⟨fuel - b.enterPressed.toNat - 1, by omega⟩
    rw [iterations_flag, iterations_receive, ih (by omega)]
    rfl

end

/-! ## Replies to `get` that are the same -/

section

variable {V : Type} {fmt : V → Bytes} {j : Nat} {ys : List V}

/-- The sixth byte of a datagram with numbers is the blank after the first of them. -/
theorem datagram_blank (hfmt : ∀ v ∈ ys, FiveChars (fmt v)) {pieces : List (Piece V)}
    (hmem : pieces ∈ rows j ys) : (datagram fmt pieces)[5]? = some 32 := by
  obtain ⟨v, rest, rfl, hitem⟩ := rows_shape j ys pieces hmem
  have hpieces : ∀ p ∈ Piece.first v :: rest, ∀ w, p.number = some w → FiveChars (fmt w) :=
    fun p hp w hw => hfmt w (rows_mem hmem hp hw)
  have hfive : (fmt v).length = 5 := (hpieces _ List.mem_cons_self v rfl).1
  have hblanks : lit "  " = [32, 32] := by decide
  rw [datagram, composed_eq hitem fun p hp => (pieceText_fiveChars (hpieces p hp)).2,
    List.map_cons, List.flatten_cons, pieceText, hblanks, List.append_assoc,
    List.getElem?_append_right (by omega), hfive]
  rfl

/-- Lists of different length make different datagrams. -/
theorem datagrams_length {ys' : List V} (hfmt : ∀ v ∈ ys, FiveChars (fmt v))
    (hfmt' : ∀ v ∈ ys', FiveChars (fmt v))
    (h : (rows j ys).map (datagram fmt) = (rows j ys').map (datagram fmt)) :
    ys.length = ys'.length := by
  fun_induction rows j ys generalizing ys' with
  | case1 j =>
    cases ys' with
    | nil => rfl
    | cons v' vs' =>
      unfold rows at h
      exact absurd h (by simp)
  | case2 j v vs ih =>
    cases ys' with
    | nil =>
      unfold rows at h
      exact absurd h (by simp)
    | cons v' vs' =>
      have hfirst := @datagram_length V fmt j (v :: vs) hfmt _
        (by rw [rows]; exact List.mem_cons_self)
      have hfirst' := @datagram_length V fmt j (v' :: vs') hfmt' _
        (by rw [rows]; exact List.mem_cons_self)
      rw [rows.eq_2 j v' vs', List.map_cons, List.map_cons, List.cons.injEq] at h
      obtain ⟨hdatagram, hrest⟩ := h
      have hdrop := ih (fun w hw => hfmt w (List.mem_cons_of_mem _ (List.mem_of_mem_drop hw)))
        (fun w hw => hfmt' w (List.mem_cons_of_mem _ (List.mem_of_mem_drop hw))) hrest
      rw [hdatagram, hfirst', datagram_width, datagram_width] at hfirst
      simp only [List.length_take, List.length_drop, List.length_cons] at hfirst hdrop ⊢
      omega

/-- The text that refuses a number is no datagram with numbers. -/
theorem refused_not_list (hfmt : ∀ v ∈ ys, FiveChars (fmt v)) (c : Int) :
    [text s!"Please enter a number between 1 and {c}\n"] ≠ (rows j ys).map (datagram fmt) := by
  intro heq
  have hmem : text s!"Please enter a number between 1 and {c}\n" ∈
      (rows j ys).map (datagram fmt) := by
    rw [← heq]
    exact List.mem_singleton_self _
  obtain ⟨pieces, hpieces, htext⟩ := List.mem_map.mp hmem
  have hblank := datagram_blank hfmt hpieces
  have hsplit : s!"Please enter a number between 1 and {c}\n" =
      "Please enter a number between 1 and " ++ toString c ++ "\n" := rfl
  have hplease : lit "Please enter a number between 1 and " =
      lit "Please" ++ lit " enter a number between 1 and " := by decide
  have hself : cstring (lit "Please") = lit "Please" := by decide
  rw [htext, text, hsplit, lit_append, lit_append, hplease, List.append_assoc, List.append_assoc,
    ← hself, cstring_append, hself] at hblank
  rw [List.getElem?_append_left (by decide)] at hblank
  exact absurd hblank (by decide)

end

/-! ## Requests that stay in their memory -/

/-- The longest list that fits in `messageTx`. -/
def LONGEST_LIST : Nat := 145

/-- The sampler holds voltages. -/
structure Sampled (w : World ℚ) : Prop where
  wf : WellFormed w.mem.hist
  volts : ∀ v ∈ w.mem.hist.recent, 0 ≤ v ∧ v ≤ 9 / 5

/-- No list that the command asks for is too long, and no number negative. -/
def Command.Inside (w : World ℚ) (n : Int) (messageRx : Bytes) : Command → Prop
  | .history => w.mem.hist.historyCount ≤ LONGEST_LIST
  | .get =>
    let scan := sscanf_d (messageRx.drop 4) n
    scan.1 ≠ 0 → scan.2 ≤ w.mem.hist.historyCount → 0 ≤ scan.2 ∧ scan.2 ≤ LONGEST_LIST
  | _ => True

instance (w : World ℚ) (n : Int) (messageRx : Bytes) : (c : Command) →
    Decidable (c.Inside w n messageRx)
  | .history => inferInstanceAs (Decidable (_ ≤ _))
  | .get => inferInstanceAs (Decidable (_ → _ → _ ∧ _))
  | .help | .count | .length | .dips | .stop => inferInstanceAs (Decidable True)

def Inside (w : World ℚ) (n : Int) (messageRx : Bytes) : Prop :=
  ∀ c ∈ dispatch (fun c => lit c.name) (fun c => (lit c.measured).length) Command.all messageRx,
    c.Inside w n messageRx

instance (w : World ℚ) (n : Int) (messageRx : Bytes) : Decidable (Inside w n messageRx) :=
  inferInstanceAs (Decidable (∀ c ∈ _, _))

section

variable {fmt : ℚ → Bytes} (hfmt : Formats fmt) {w : World ℚ} (hw : Sampled w)

include hfmt hw

/-- A number in range is answered with a list, where that is not too long. -/
theorem listRequest_volts {n : Int} (h0 : 0 ≤ n) (hn : n ≤ w.mem.hist.historyCount) :
    ∃ ns : List ℚ, (ns.length : Int) = n ∧ (∀ v ∈ ns, FiveChars (fmt v)) ∧
      (n ≤ LONGEST_LIST → ∀ tx,
        (listRequest fmt w (.get n) tx).observed = ((rows 0 ns).map (datagram fmt), false)) ∧
      (LONGEST_LIST < n → ∀ tx, (listRequest fmt w (.get n) tx).observed.2 = true) := by
  obtain ⟨ns, hlen, hmem, -, hlist, hoverflow⟩ := listRequest_numbers fmt hw.wf h0 hn
  have hfive : ∀ v ∈ ns, FiveChars (fmt v) := fun v hv =>
    hfmt v (hw.volts v (hmem v hv)).1 (hw.volts v (hmem v hv)).2
  rw [listFits_iff_length hfive] at hlist hoverflow
  refine ⟨ns, hlen, hfive, fun hle => hlist ?_, fun hlt => hoverflow ?_⟩
  all_goals
    unfold LONGEST_LIST at *
    omega

theorem get_valid_iff (n : Int) (tx : Bytes) :
    (listRequest fmt w (.get n) tx).observed.2 = false ↔
      (n ≤ w.mem.hist.historyCount → 0 ≤ n ∧ n ≤ LONGEST_LIST) := by
  rcases lt_or_ge w.mem.hist.historyCount n with hrefused | hin
  · rw [listRequest_refused fmt w hrefused]
    exact iff_of_true rfl fun h => by omega
  rcases lt_or_ge n 0 with hneg | h0
  · rw [listRequest_negative fmt hw.wf hneg]
    exact iff_of_false (by decide) fun h => by have := h hin; omega
  obtain ⟨ns, -, -, hlist, hoverflow⟩ := listRequest_volts hfmt hw h0 hin
  rcases le_or_gt n LONGEST_LIST with hshort | hlong
  · rw [hlist hshort]
    exact iff_of_true rfl fun _ => ⟨h0, hshort⟩
  · rw [hoverflow hlong]
    exact iff_of_false (by decide) fun h => by have := h hin; omega

theorem history_valid_iff (tx : Bytes) :
    (listRequest fmt w .history tx).observed.2 = false ↔
      w.mem.hist.historyCount ≤ LONGEST_LIST := by
  have hcount := hw.wf.count_nonneg
  have hle := hw.wf.count_le
  have hsize := hw.wf.length
  obtain ⟨hvalue, hmessages⟩ := run_history hw.wf
  rw [listRequest_eq, hvalue, hmessages]
  change (sendAll fmt _).2 = false ↔ _
  have hfive : ∀ v ∈ w.mem.hist.recent.take w.mem.hist.historyCount.toNat, FiveChars (fmt v) :=
    fun v hv => hfmt v (hw.volts v (List.mem_of_mem_take hv)).1
      (hw.volts v (List.mem_of_mem_take hv)).2
  have hlength := listFits_iff_length hfive
  rw [List.length_take] at hlength
  unfold LONGEST_LIST
  by_cases hfits : ListFits fmt (w.mem.hist.recent.take w.mem.hist.historyCount.toNat)
  · rw [sendAll_fits (List.Subset.refl _) hfits]
    have := hlength.mp hfits
    exact iff_of_true rfl (by omega)
  · rw [sendAll_overflow (List.Subset.refl _) hfits]
    have := mt hlength.mpr hfits
    exact iff_of_false (by decide) (by omega)

/-- **A request makes no invalid access exactly when its list fits in the reply buffer.** -/
theorem handleRequest_valid_iff (n : Int) (rx tx : Bytes) :
    (handleRequest fmt w n rx tx).fault = false ↔ Inside w n rx := by
  unfold handleRequest Inside
  cases dispatch (fun c => lit c.name) (fun c => (lit c.measured).length) Command.all rx with
  | none => exact iff_of_true rfl nofun
  | some c =>
    simp only [Option.mem_def, Option.some.injEq, forall_eq']
    cases c with
    | history => exact history_valid_iff hfmt hw tx
    | get =>
      simp only [Command.serve, Command.Inside, getRequest]
      obtain ⟨valid, k⟩ := sscanf_d (rx.drop 4) n
      by_cases hvalid : valid = 0
      · simp [hvalid, reply]
      · simp only [hvalid, ne_eq, not_false_eq_true, if_true, true_imp_iff]
        exact get_valid_iff hfmt hw k tx
    | _ => exact iff_of_true rfl trivial

/-! ## What a reply to `get` is decided by -/

/-- A number that is not above the number of samples is not refused. -/
theorem listRequest_accepted {n : Int} (hn : n ≤ w.mem.hist.historyCount) (c : Int) (tx : Bytes) :
    (listRequest fmt w (.get n) tx).observed ≠
      ([text s!"Please enter a number between 1 and {c}\n"], false) := by
  intro heq
  rcases lt_or_ge n 0 with hneg | h0
  · rw [listRequest_negative fmt hw.wf hneg] at heq
    cases heq
  obtain ⟨ns, -, hfive, hlist, hoverflow⟩ := listRequest_volts hfmt hw h0 hn
  rcases le_or_gt n LONGEST_LIST with hshort | hlong
  · rw [hlist hshort] at heq
    exact refused_not_list hfive c (Prod.mk.inj heq).1.symm
  · have hfault := hoverflow hlong tx
    rw [heq] at hfault
    cases hfault

/-- Which numbers `get` answers like one that it answers. -/
theorem listRequest_same_iff {n : Int} {tx : Bytes}
    (hvalid : (listRequest fmt w (.get n) tx).observed.2 = false) (n' : Int) (tx' : Bytes) :
    (listRequest fmt w (.get n) tx).observed = (listRequest fmt w (.get n') tx').observed ↔
      n = n' ∨ w.mem.hist.historyCount < n ∧ w.mem.hist.historyCount < n' := by
  constructor
  · intro heq
    rcases lt_or_ge w.mem.hist.historyCount n with hrefused | hin
    · refine .inr ⟨hrefused, ?_⟩
      by_contra hin'
      rw [listRequest_refused fmt w hrefused] at heq
      exact listRequest_accepted hfmt hw (by omega) _ tx' heq.symm
    have hin' : n' ≤ w.mem.hist.historyCount := by
      by_contra hrefused'
      rw [listRequest_refused fmt w (not_le.mp hrefused') tx'] at heq
      exact listRequest_accepted hfmt hw hin _ tx heq
    -- both numbers are in range, and as many elements are sent
    obtain ⟨h0, hshort⟩ := (get_valid_iff hfmt hw n tx).mp hvalid hin
    obtain ⟨h0', hshort'⟩ := (get_valid_iff hfmt hw n' tx').mp (heq ▸ hvalid) hin'
    obtain ⟨ns, hlen, hfive, hlist, -⟩ := listRequest_volts hfmt hw h0 hin
    obtain ⟨ns', hlen', hfive', hlist', -⟩ := listRequest_volts hfmt hw h0' hin'
    rw [hlist hshort, hlist' hshort'] at heq
    have hsame := datagrams_length hfive hfive' (Prod.mk.inj heq).1
    exact .inl (by omega)
  · rintro (rfl | ⟨hrefused, hrefused'⟩)
    · exact listRequest_observed fmt w (.get n) tx tx'
    · rw [listRequest_refused fmt w hrefused, listRequest_refused fmt w hrefused']

end

/-- Two scans that `get` treats in one way: without a number, or with numbers that are the same or
both above the number of samples. -/
def SameNumber (c : Int) (s t : Int × Int) : Prop :=
  s.1 = 0 ∧ t.1 = 0 ∨ s.1 ≠ 0 ∧ t.1 ≠ 0 ∧ (s.2 = t.2 ∨ c < s.2 ∧ c < t.2)

instance (c : Int) (s t : Int × Int) : Decidable (SameNumber c s t) :=
  inferInstanceAs (Decidable (_ ∨ _))

/-- What `get` answers is decided by the scan of the text at offset 4. -/
theorem getRequest_same_iff {fmt : ℚ → Bytes} (hfmt : Formats fmt) {w : World ℚ} (hw : Sampled w)
    {n : Int} {rx tx : Bytes} (hvalid : (getRequest fmt w n rx tx).fault = false) (rx' : Bytes) :
    (getRequest fmt w n rx tx).observed = (getRequest fmt w n rx' tx).observed ↔
      SameNumber w.mem.hist.historyCount (sscanf_d (rx.drop 4) n) (sscanf_d (rx'.drop 4) n) := by
  have htext : (reply (strcpy tx (lit "N is not a valid number"))).observed =
      ([text "N is not a valid number"], false) := by
    rw [Reply.observed, reply, cstring_strcpy, text]
  unfold getRequest at hvalid ⊢
  unfold SameNumber
  generalize sscanf_d (rx.drop 4) n = s at hvalid ⊢
  obtain ⟨valid, k⟩ := s
  obtain ⟨valid', k'⟩ := sscanf_d (rx'.drop 4) n
  by_cases hnumber : valid = 0
  · by_cases hnumber' : valid' = 0
    · simp [hnumber, hnumber']
    · simp only [hnumber, hnumber', htext, ne_eq, not_true_eq_false, not_false_eq_true, if_true,
        if_false]
      exact iff_of_false (listRequest_not_text fmt hw.wf k' tx).symm (by simp)
  · by_cases hnumber' : valid' = 0
    · simp only [hnumber, hnumber', htext, ne_eq, not_true_eq_false, not_false_eq_true, if_true,
        if_false]
      exact iff_of_false (listRequest_not_text fmt hw.wf k tx) (by simp)
    · simp only [hnumber, hnumber', ne_eq, not_false_eq_true, if_true, false_and, false_or,
        true_and] at hvalid ⊢
      exact listRequest_same_iff hfmt hw hvalid k' tx

/-! ## The copy -/

section

variable {V : Type} [Zero V] [DecidableEq V] (fmt : V → Bytes)

/-- The copy starts with the same command. -/
theorem find_command_copy (d : Bytes) :
    (Command.all.find? fun c => lit c.name <+: cstring d) =
      Command.all.find? fun c => lit c.name <+: d :=
  List.find?_congr fun c hc => decide_eq_decide.mpr (prefix_cstring (name_nonzero c hc) d)

/-- After the datagram `d` and any number of single bytes `prevMsg` starts with a copy of `d`. -/
theorem prevMsg_after (b₀ : Buffers) (pre : List (Arrival V)) {d : Arrival V}
    (hd : d.datagram.length ≠ 1) {enters : List (Arrival V)}
    (henters : ∀ e ∈ enters, e.datagram.length = 1) :
    ∃ rest, (after fmt b₀ (pre ++ d :: enters)).prevMsg = terminated (cstring d.datagram) rest := by
  induction enters using List.reverseRecOn with
  | nil =>
    refine ⟨(after fmt b₀ pre).prevMsg, ?_⟩
    rw [after, List.foldl_append, List.foldl_cons, List.foldl_nil, serve, receive, if_neg hd]
    simp [strcpy, after]
  | append_singleton enters e ih =>
    obtain ⟨rest, hrest⟩ := ih fun e he => henters e (List.mem_append_left _ he)
    have he : e.datagram.length = 1 := henters e (by simp)
    refine ⟨rest, ?_⟩
    rw [← List.cons_append, ← List.append_assoc, after, List.foldl_append, List.foldl_cons,
      List.foldl_nil, ← hrest, serve, receive, if_pos he]
    rfl

/-- Unless it is a bare `get`, the copy is answered like the datagram. -/
theorem copy_answered {d : Bytes} (hbare : cstring d ≠ lit "get") (w : World V) (n : Int)
    (rx rx' tx : Bytes) :
    handleRequest fmt w n (terminated (cstring d) rx) tx =
      handleRequest fmt w n (terminated d rx') tx := by
  rw [handleRequest, handleRequest, find_command, find_command, find_command_copy]
  cases hfind : Command.all.find? fun c => lit c.name <+: d with
  | none => rfl
  | some c =>
    cases c with
    | get =>
      have hget : lit "get" <+: cstring d :=
        (prefix_cstring (name_nonzero .get (by decide)) d).mpr
          (by simpa using List.find?_some hfind)
      have hlong : 4 ≤ (cstring d).length := by
        by_contra hshort
        have hle : (cstring d).length ≤ (lit "get").length := by
          have hthree : (lit "get").length = 3 := by decide
          omega
        exact hbare (hget.eq_of_length_le hle).symm
      have hle : (cstring d).length ≤ d.length := (List.takeWhile_prefix _).length_le
      have hscan : cstring ((terminated (cstring d) rx).drop 4) =
          cstring ((terminated d rx').drop 4) := by
        rw [cstring_drop_terminated hlong, cstring_drop_terminated (by omega),
          cstring_drop_cstring hlong]
      dsimp only
      rw [Command.serve, Command.serve, getRequest, getRequest, sscanf_d_congr hscan]
    | _ => rfl

/-- The text from which a datagram is answered. -/
def asked (b : Buffers) (a : Arrival V) : Bytes :=
  if a.datagram.length = 1 then b.prevMsg else terminated a.datagram b.messageRx

theorem serve_reply (b : Buffers) (a : Arrival V) :
    (serve fmt b a).1 = handleRequest fmt a.world a.n (asked b a) b.messageTx := by
  unfold serve receive asked
  split <;> rfl

/-- No datagram of the history makes an invalid access. -/
def Valid (b₀ : Buffers) (history : List (Arrival V)) : Prop :=
  Throughout (fun b a => (serve fmt b a).2) (fun b a => (serve fmt b a).1.fault = false) b₀ history

/-- The single byte `x` after the history is answered as the datagram `d` would be again, with no
invalid access up to there, and no datagram after it is skipped. -/
def Repeats (b₀ : Buffers) (history : List (Arrival V)) (d : Bytes) (x : UInt8) (w : World V)
    (n : Int) : Prop :=
  Valid fmt b₀ (history ++ [⟨[x], w, n⟩]) ∧
    repliesTo fmt b₀ history ⟨[x], w, n⟩ = repliesTo fmt b₀ history ⟨d, w, n⟩ ∧
    ∀ (later : List (Arrival V)) (fuel : Nat), 2 * (later.length + 1) ≤ fuel →
      iterations fmt fuel (after fmt b₀ history) (⟨[x], w, n⟩ :: later) =
        answers fmt (after fmt b₀ history) (⟨[x], w, n⟩ :: later)

end

/-- No list that a datagram of the history asks for is too long, and no number negative. -/
def StaysInside (fmt : ℚ → Bytes) (b₀ : Buffers) (history : List (Arrival ℚ)) : Prop :=
  Throughout (fun b a => (serve fmt b a).2) (fun b a => Inside a.world a.n (asked b a)) b₀ history

instance (fmt : ℚ → Bytes) (b₀ : Buffers) (history : List (Arrival ℚ)) :
    Decidable (StaysInside fmt b₀ history) :=
  inferInstanceAs (Decidable (Throughout _ _ _ _))

theorem valid_iff {fmt : ℚ → Bytes} (hfmt : Formats fmt) {history : List (Arrival ℚ)}
    (hsampled : ∀ a ∈ history, Sampled a.world) (b₀ : Buffers) :
    Valid fmt b₀ history ↔ StaysInside fmt b₀ history :=
  throughout_congr (fun b a ha => by
    rw [serve_reply]
    exact handleRequest_valid_iff hfmt (hsampled a ha) _ _ _) b₀

/-- A bare `get` is scanned beyond its NUL: there the copy has to read like the receive buffer. -/
def RepeatFits (fmt : ℚ → Bytes) (b₀ : Buffers) (history : List (Arrival ℚ)) (d : Bytes) (x : UInt8)
    (w : World ℚ) (n : Int) : Prop :=
  StaysInside fmt b₀ (history ++ [⟨[x], w, n⟩]) ∧
    (cstring d = lit "get" →
      SameNumber w.mem.hist.historyCount (sscanf_d ((after fmt b₀ history).prevMsg.drop 4) n)
        (sscanf_d ((terminated d (after fmt b₀ history).messageRx).drop 4) n))

theorem oneSample_sampled : Sampled oneSample where
  wf := by constructor <;> decide
  volts := by
    simp [oneSample]
    norm_num

end UdpListen
