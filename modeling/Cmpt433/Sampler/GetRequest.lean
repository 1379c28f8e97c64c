import Cmpt433.Sampler.Datagrams
import Cmpt433.Sampler.Paths

/-!
# Which numbers `get` accepts (`work/as2/udpListen.c`)

`sscanf` has three outcomes and `handleRequest` tests for 0 only: at the end of the string the
value is -1 and the uninitialised `n` is used.  The number is compared with the number of samples
but not with 1, nor with what `messageTx` can hold.

* `get_accepts_iff` — for which requests the reply is the one that the texts promise.
* `valuesFit_iff` — of numbers with five characters 145 fit.
-/

set_option autoImplicit false

namespace UdpListen

open CString Interaction Udp Sampler

variable {V : Type} (fmt : V → Bytes)

/-- The C string of a text. -/
def text (s : String) : Bytes := cstring (lit s)

variable [Zero V] [DecidableEq V]

/-! ## The three ranges of `n` -/

theorem listRequest_refused (w : World V) {n : Int} (hn : w.mem.hist.historyCount < n)
    (tx : Bytes) :
    (listRequest fmt w (.get n) tx).observed =
      ([text s!"Please enter a number between 1 and {w.mem.hist.historyCount}\n"], false) := by
  obtain ⟨hvalue, hevs⟩ := run_refused hn
  rw [listRequest_eq, hvalue, hevs]
  simp [messages, sendAll, compose, text]

/-- What a number in range is answered with is decided by the list. -/
theorem listRequest_sendAll {w : World V} (wf : WellFormed w.mem.hist) {n : Nat}
    (hn : (n : Int) ≤ w.mem.hist.historyCount) {ns : List V}
    (hns : Sampler.Sampler_get_N n w.mem.hist = some (some ns)) (tx : Bytes) :
    (listRequest fmt w (.get n) tx).observed = sendAll fmt ((rows 0 ns).map .numbers) := by
  obtain ⟨hvalue, hmessages⟩ := run_get wf hn hns
  rw [listRequest_eq, hvalue, hmessages]
  rfl

theorem listRequest_negative {w : World V} (wf : WellFormed w.mem.hist) {n : Int} (hn : n < 0)
    (tx : Bytes) : (listRequest fmt w (.get n) tx).observed = ([], true) := by
  obtain ⟨hvalue, hmessages⟩ := run_negative wf hn
  rw [listRequest_eq, hvalue, hmessages]
  rfl

omit [DecidableEq V] in
theorem get_N_length {h : History V} (wf : WellFormed h) {n : Nat}
    (hn : (n : Int) ≤ h.historyCount) :
    ∃ ns, Sampler.Sampler_get_N n h = some (some ns) ∧ ns.length = n := by
  refine ⟨_, get_N_rotate wf hn, ?_⟩
  have hlen := ring_length wf
  have hcount := wf.count_le
  rw [List.length_drop, List.length_rotate]
  omega

omit [DecidableEq V] in
/-- The elements that `get` sends are in the array. -/
theorem get_N_mem {h : History V} (wf : WellFormed h) {n : Nat} (hn : (n : Int) ≤ h.historyCount)
    {ns : List V} (hns : Sampler.Sampler_get_N n h = some (some ns)) : ∀ v ∈ ns, v ∈ h.recent := by
  rw [get_N_rotate wf hn, Option.some.injEq, Option.some.injEq] at hns
  intro v hv
  rw [← hns, History.ring] at hv
  exact List.mem_rotate.mp (List.mem_rotate.mp (List.mem_of_mem_drop hv))

/-- A number that is in range is answered with as many elements of the array, if they fit in the
reply buffer. -/
theorem listRequest_numbers {w : World V} (wf : WellFormed w.mem.hist) {n : Int} (h0 : 0 ≤ n)
    (hn : n ≤ w.mem.hist.historyCount) :
    ∃ ns : List V, (ns.length : Int) = n ∧ (∀ v ∈ ns, v ∈ w.mem.hist.recent) ∧
      Sampler.Sampler_get_N n w.mem.hist = some (some ns) ∧
      (ListFits fmt ns → ∀ tx,
        (listRequest fmt w (.get n) tx).observed = ((rows 0 ns).map (datagram fmt), false)) ∧
      (¬ ListFits fmt ns → ∀ tx, (listRequest fmt w (.get n) tx).observed.2 = true) := by
  obtain ⟨n, rfl⟩ := Int.eq_ofNat_of_zero_le h0
  obtain ⟨ns, hns, hlen⟩ := get_N_length wf hn
  refine ⟨ns, congrArg _ hlen, get_N_mem wf hn hns, hns, fun hfits tx => ?_, fun hlong tx => ?_⟩
  · rw [listRequest_sendAll fmt wf hn hns]
    exact sendAll_fits (List.Subset.refl _) hfits
  · rw [listRequest_sendAll fmt wf hn hns]
    exact sendAll_overflow (List.Subset.refl _) hlong

/-! ## Replies -/

/-- The integer that the text after `get ` starts with. -/
def parsed (request : Bytes) : Option Int := signed (afterBlanks (request.drop 4))

/-- The accesses that the branch for `get` makes. -/
def getEvents (w : World V) (n : Int) (messageRx : Bytes) :
    List (Event (Call V) Call.Answer) :=
  let (valid, n) := sscanf_d (messageRx.drop 4) n
  if valid ≠ 0 then (run answer (Udp.handleRequest (.get n)) w.mem).events else []

/-- The reply is the one for the integer in the request: that many values, the text with the valid
range, for which nothing but the number of samples is loaded, or the text for no number. -/
def Replied (w : World V) (n : Int) (request rx tx : Bytes) : Prop :=
  let messageRx := terminated request rx
  let observed := (handleRequest fmt w n messageRx tx).observed
  let c := w.mem.hist.historyCount
  match parsed request with
  | none => observed = ([text "N is not a valid number"], false)
  | some k =>
    if 1 ≤ k ∧ k ≤ c then
      ∃ ns : List V, (ns.length : Int) = k ∧
        Sampler.Sampler_get_N k w.mem.hist = some (some ns) ∧
        observed = ((rows 0 ns).map (datagram fmt), false)
    else
      observed = ([text s!"Please enter a number between 1 and {c}\n"], false) ∧
        ∀ ev ∈ getEvents w n messageRx, ev.1 = .historyCount ∨ ∃ msg, ev.1 = .sendto msg

/-- The text is not blank, and if it starts with an integer that is positive. -/
def PositiveOrText (request : Bytes) : Prop :=
  afterBlanks (request.drop 4) ≠ [] ∧ ∀ k, parsed request = some k → 1 ≤ k

/-- The values that the number asks for fit in `messageTx`. -/
def ValuesFit (w : World V) (request : Bytes) : Prop :=
  ∀ k ns, parsed request = some k → Sampler.Sampler_get_N k w.mem.hist = some (some ns) →
    ListFits fmt ns

omit [Zero V] [DecidableEq V] in
theorem datagram_getLast (ps : List (Piece V)) :
    (datagram fmt (ps ++ [.newline])).getLast? = some 10 := by
  have hnewline : cstring (lit "\n") = [10] := by decide
  rw [datagram, List.foldl_append, List.foldl_cons, List.foldl_nil, withPiece, cstring_strcat,
    hnewline, List.getLast?_concat]

/-- A list request never answers with the text for no number. -/
theorem listRequest_not_text {w : World V} (wf : WellFormed w.mem.hist) (n : Int) (tx : Bytes) :
    (listRequest fmt w (.get n) tx).observed ≠ ([text "N is not a valid number"], false) := by
  rcases lt_or_ge w.mem.hist.historyCount n with hrefused | hle
  · -- the other text starts with another letter
    rw [listRequest_refused fmt w hrefused]
    intro heq
    have htext := (List.cons.inj (Prod.mk.inj heq).1).1
    have hhead := congrArg List.head? htext
    have hsplit : s!"Please enter a number between 1 and {w.mem.hist.historyCount}\n" =
        "Please enter a number between 1 and " ++ toString w.mem.hist.historyCount ++ "\n" := rfl
    have hplease : lit "Please enter a number between 1 and " =
        80 :: lit "lease enter a number between 1 and " := by decide
    rw [text, hsplit, lit_append, lit_append, hplease, cstring, List.cons_append,
      List.cons_append, List.takeWhile_cons_of_pos (by decide), List.head?_cons] at hhead
    exact absurd hhead (by decide)
  · rcases lt_or_ge n 0 with hneg | h0
    · rw [listRequest_negative fmt wf hneg]
      simp
    · -- a datagram with numbers ends with a newline
      obtain ⟨ns, -, -, -, hlist, hoverflow⟩ := listRequest_numbers fmt wf h0 hle
      intro heq
      by_cases hfits : ListFits fmt ns
      swap
      · have hfault := hoverflow hfits tx
        rw [heq] at hfault
        cases hfault
      rw [hlist hfits] at heq
      have hlast : (text "N is not a valid number").getLast? ≠ some 10 := by decide
      have hmem : text "N is not a valid number" ∈ (rows 0 ns).map (datagram fmt) := by
        rw [(Prod.mk.inj heq).1]
        exact List.mem_cons_self
      obtain ⟨pieces, hpieces, htext⟩ := List.mem_map.mp hmem
      obtain ⟨ps, rfl⟩ := rows_newline 0 ns pieces hpieces
      exact hlast (htext ▸ datagram_getLast fmt ps)

/-- A number below 1 is not refused. -/
theorem listRequest_not_refused {w : World V} (wf : WellFormed w.mem.hist) {k : Int} (hk : k < 1)
    (tx s : Bytes) : (listRequest fmt w (.get k) tx).observed ≠ ([s], false) := by
  rcases lt_or_ge k 0 with hneg | h0
  · rw [listRequest_negative fmt wf hneg]
    simp
  · -- 0 is accepted, and nothing is sent
    obtain ⟨ns, hlen, -, -, hlist, -⟩ :=
      listRequest_numbers fmt wf h0 (by have := wf.count_nonneg; omega)
    obtain rfl := List.length_eq_zero_iff.mp (show ns.length = 0 by omega)
    rw [hlist (by simp [ListFits, rows]), rows]
    simp

/-- **`get` answers as its texts promise exactly when the number is positive and its values fit in
the reply buffer, or there is no number but some other text.** -/
theorem get_accepts_iff {request : Bytes} (hget : lit "get " <+: request) {w : World V}
    (wf : WellFormed w.mem.hist) (n : Int) (rx tx : Bytes) :
    Replied fmt w n request rx tx ↔ PositiveOrText request ∧ ValuesFit fmt w request := by
  have hlong : 4 ≤ request.length := hget.length_le
  have hname : lit "get" <+: request := List.IsPrefix.trans (by decide) hget
  have hscan : afterBlanks ((terminated request rx).drop 4) = afterBlanks (request.drop 4) :=
    congrArg (List.dropWhile isspace) (cstring_drop_terminated hlong)
  have hcount := wf.count_nonneg
  rw [Replied, PositiveOrText, ValuesFit, getEvents, handleRequest_get fmt hname, getRequest,
    sscanf_d, hscan, parsed]
  by_cases hblank : afterBlanks (request.drop 4) = []
  · -- `EOF` is taken for success
    have hnone : signed [] = none := rfl
    rw [if_pos hblank, hblank, hnone]
    exact iff_of_false (listRequest_not_text fmt wf n tx) (by simp)
  · rw [if_neg hblank]
    cases hk : signed (afterBlanks (request.drop 4)) with
    | none => simp [hblank, Reply.observed, reply, text]
    | some k =>
      simp only [ne_eq, one_ne_zero, not_false_eq_true, if_true, hblank, true_and,
        Option.some.injEq, forall_eq']
      constructor
      · intro hreply
        have hpos : 1 ≤ k := by
          by_contra hpos
          rw [if_neg (by omega)] at hreply
          exact listRequest_not_refused fmt wf (by omega) tx _ hreply.1
        refine ⟨hpos, ?_⟩
        rintro k' ns rfl hns
        have hin : k ≤ w.mem.hist.historyCount := by
          by_contra hout
          rw [Sampler.Sampler_get_N, if_pos (by omega)] at hns
          cases hns
        obtain ⟨ns', -, -, hns', -, hoverflow⟩ := listRequest_numbers fmt wf (by omega) hin
        obtain rfl : ns' = ns := by simpa [hns] using hns'.symm
        -- an overflow is no reply
        by_contra hlong
        rw [if_pos ⟨hpos, hin⟩] at hreply
        obtain ⟨_, -, -, hobserved⟩ := hreply
        have hfault := hoverflow hlong tx
        rw [hobserved] at hfault
        cases hfault
      · rintro ⟨hpos, hfit⟩
        split
        · rename_i hin
          obtain ⟨ns, hlen, -, hns, hlist, -⟩ := listRequest_numbers fmt wf (by omega) hin.2
          exact ⟨ns, hlen, hns, hlist (hfit k ns rfl hns) tx⟩
        · rename_i hout
          have habove : w.mem.hist.historyCount < k := by omega
          refine ⟨listRequest_refused fmt w habove tx, fun ev hev => ?_⟩
          rw [(run_refused habove).2] at hev
          rcases List.mem_cons.mp hev with rfl | hev
          · exact .inl rfl
          · rw [List.mem_singleton.mp hev]
            exact .inr ⟨_, rfl⟩

/-- Of voltages at most 145 fit. -/
theorem valuesFit_iff {fmt : ℚ → Bytes} (hfmt : Formats fmt) {w : World ℚ}
    (wf : WellFormed w.mem.hist) (hvolts : ∀ v ∈ w.mem.hist.recent, 0 ≤ v ∧ v ≤ 9 / 5)
    {request : Bytes} {k : Int} (hk : parsed request = some k) (hpos : 1 ≤ k) :
    ValuesFit fmt w request ↔ (k ≤ w.mem.hist.historyCount → k ≤ 145) := by
  have hvalues : ValuesFit fmt w request ↔
      ∀ ns, Sampler.Sampler_get_N k w.mem.hist = some (some ns) → ListFits fmt ns := by
    refine ⟨fun h ns => h k ns hk, fun h k' ns hk' => ?_⟩
    obtain rfl := Option.some.inj (hk.symm.trans hk')
    exact h ns
  rw [hvalues]
  by_cases hin : k ≤ w.mem.hist.historyCount
  · obtain ⟨ns, hlen, hmem, hns, -⟩ := listRequest_numbers fmt wf (by omega) hin
    have hfive : ∀ v ∈ ns, FiveChars (fmt v) := fun v hv =>
      hfmt v (hvolts v (hmem v hv)).1 (hvolts v (hmem v hv)).2
    simp only [hns, Option.some.injEq, forall_eq', hin, true_imp_iff, listFits_iff_length hfive]
    omega
  · refine iff_of_true (fun ns hns => ?_) fun h => absurd h hin
    rw [Sampler.Sampler_get_N, if_pos (by omega)] at hns
    cases hns

/-- One sample, in an array of one. -/
def oneSample : World ℚ := ⟨⟨⟨[1], 1, 0, 1⟩, 0, false⟩, 1, 0⟩

theorem get_accepts_one : Replied fixed3 oneSample 0 (lit "get 1\n") [] [] := by
  have hparsed : parsed (lit "get 1\n") = some 1 := by decide
  have hvolts : ∀ v ∈ oneSample.mem.hist.recent, 0 ≤ v ∧ v ≤ 9 / 5 := by
    simp [oneSample]
    norm_num
  refine (get_accepts_iff fixed3 (by decide) (by constructor <;> decide) 0 [] []).mpr
    ⟨⟨by decide, fun k hk => ?_⟩, (valuesFit_iff fixed3_formats (by constructor <;> decide) hvolts
      hparsed le_rfl).mpr fun _ => by decide⟩
  rw [hparsed] at hk
  obtain rfl := Option.some.inj hk
  exact le_rfl

/-- `get 0` is taken for valid: nothing is sent. -/
theorem get_zero_silent : ¬ ∀ (request : Bytes) (w : World ℚ) (n : Int) (rx tx : Bytes),
    lit "get " <+: request → WellFormed w.mem.hist → Replied fixed3 w n request rx tx := by
  intro hall
  have hreplied := hall (lit "get 0\n") oneSample 0 [] [] (by decide) (by constructor <;> decide)
  have hparsed : parsed (lit "get 0\n") = some 0 := by decide
  have hsilent : (handleRequest fixed3 oneSample 0 (terminated (lit "get 0\n") []) []).observed =
      ([], false) := by rfl
  rw [Replied, hparsed, hsilent] at hreplied
  exact absurd hreplied.1 (by simp)

end UdpListen
