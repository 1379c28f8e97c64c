import Cmpt433.Lib.Interference
import Cmpt433.Sampler.Requests

/-!
# List requests while the sampler runs

The UDP thread handles one `history` or `get N` request; between any two of its accesses the
sampler thread may store samples and resize the history.  The mutex only guards the two loads of
`Sampler_getHistory`, and stores do not take it.

* `loads_stable` — while the sampler spares what is still to be loaded, every load is answered as
  in one fixed state.
* `query_snapshot` — a request that is spared sends the content of one moment and never touches
  freed memory.
* `torn_history` — without that it does not.
-/

set_option autoImplicit false

namespace Udp

open Interaction CheckedArray Sampler Runs

variable {V : Type} [Zero V] [DecidableEq V]

/-- The shared memory: the history, the name of its array, and whether the UDP thread holds
`historyMutex`. -/
structure Mem (V : Type) where
  hist : History V
  block : Nat
  locked : Bool

/-- The accesses of the UDP thread.  Every array but the live one is freed. -/
def answer : (e : Call V) → Mem V → e.Answer × Mem V
  | .lock, m => ((), { m with locked := true })
  | .unlock, m => ((), { m with locked := false })
  | .recent, m => (m.block, m)
  | .arraySize, m => (m.hist.arraySize, m)
  | .recentIndex, m => (m.hist.recentIndex, m)
  | .historyCount, m => (m.hist.historyCount, m)
  | .element array i, m => (if array = m.block then read m.hist.recent i else none, m)
  | .sendto _, m => ((), m)

/-- The operation allocates a new array and frees the old one. -/
def reallocates (h : History V) : Op V → Bool
  | .store _ => false
  | .resize newSize _ => newSize != h.arraySize

/-- One step of the sampler thread.  It waits for the mutex before it reallocates, and stops at an
access outside its arrays. -/
def move (m : Mem V) (op : Op V) : Mem V :=
  if m.locked && reallocates m.hist op then m
  else
    match op.apply m.hist with
    | none => m
    | some h => { m with hist := h, block := if reallocates m.hist op then m.block + 1 else m.block }

abbrev memStep : Mem V → Label (Call V) Call.Answer (Op V) → Mem V := labelStep answer move

/-- A run of a UDP function between steps of the sampler. -/
abbrev Amid {α : Type} (p : Thread V α) (m : Mem V) (tr : List (Label (Call V) Call.Answer (Op V)))
    (p' : Thread V α) (m' : Mem V) : Prop := Interfered answer move p m tr p' m'

/-! ## Steps that spare what is still to be loaded -/

/-- Loads of the array, its name or its size. -/
def isLoad : Call V → Bool
  | .recent => true
  | .arraySize => true
  | .element _ _ => true
  | _ => false

/-- The slots loaded. -/
def slots (evs : List (Event (Call V) Call.Answer)) : List Int :=
  evs.filterMap fun
    | ⟨.element _ i, _⟩ => some i
    | _ => none

/-- The sampler's step spares the accesses `evs`: it frees no array that is still to be loaded and
overwrites no slot that is still to be loaded (with another value). -/
def Spares (m : Mem V) (evs : List (Event (Call V) Call.Answer)) : Op V → Prop
  | .resize newSize _ => newSize = m.hist.arraySize ∨ ∀ ev ∈ evs, isLoad ev.1 = false
  | .store v =>
    m.hist.recentIndex ∉ slots evs ∨ read m.hist.recent m.hist.recentIndex = some v

/-- Every step of the sampler spares the accesses that come after it. -/
def Spared : Mem V → List (Label (Call V) Call.Answer (Op V)) → Prop
  | _, [] => True
  | m, .act ev :: tr => Spared (memStep m (.act ev)) tr
  | m, .env op :: tr => Spares m (acts tr) op ∧ Spared (memStep m (.env op)) tr

instance (m : Mem V) (evs : List (Event (Call V) Call.Answer)) :
    (op : Op V) → Decidable (Spares m evs op)
  | .resize newSize _ =>
    inferInstanceAs (Decidable (newSize = m.hist.arraySize ∨ ∀ ev ∈ evs, isLoad ev.1 = false))
  | .store v => inferInstanceAs (Decidable (m.hist.recentIndex ∉ slots evs ∨
      read m.hist.recent m.hist.recentIndex = some v))

instance decidableSpared : (m : Mem V) → (tr : List (Label (Call V) Call.Answer (Op V))) →
    Decidable (Spared m tr)
  | _, [] => inferInstanceAs (Decidable True)
  | m, .act ev :: tr => decidableSpared (memStep m (.act ev)) tr
  | m, .env op :: tr =>
    have := decidableSpared (memStep m (.env op)) tr
    inferInstanceAs (Decidable (Spares m (acts tr) op ∧ Spared (memStep m (.env op)) tr))

omit [DecidableEq V] [Zero V] in
theorem mem_slots {evs : List (Event (Call V) Call.Answer)} {array : Nat} {i : Int}
    {r : (Call.element array i : Call V).Answer} (h : ⟨.element array i, r⟩ ∈ evs) :
    i ∈ slots evs := List.mem_filterMap.mpr ⟨_, h, rfl⟩

omit [DecidableEq V] [Zero V] in
/-- A load is answered from the array and its name only. -/
theorem answer_load {m m' : Mem V} {e : Call V} (he : isLoad e = true)
    (hsize : m'.hist.arraySize = m.hist.arraySize) (hblock : m'.block = m.block)
    (hslot : ∀ array i, e = .element array i → read m'.hist.recent i = read m.hist.recent i) :
    (answer e m').1 = (answer e m).1 := by
  cases e with
  | recent => exact hblock
  | arraySize => exact hsize
  | element array i => simp only [answer, hblock, hslot array i rfl]
  | _ => cases he

omit [DecidableEq V] [Zero V] in
/-- The UDP thread changes nothing but the mutex. -/
theorem answer_keeps (e : Call V) (m : Mem V) :
    (answer e m).2.hist = m.hist ∧ (answer e m).2.block = m.block := by
  cases e <;> exact ⟨rfl, rfl⟩

/-- A step that spares the accesses `evs` does not change their answers. -/
theorem spares_load {m : Mem V} {evs : List (Event (Call V) Call.Answer)} {op : Op V}
    (h : Spares m evs op) {ev : Event (Call V) Call.Answer} (hev : ev ∈ evs)
    (hload : isLoad ev.1 = true) : (answer ev.1 (move m op)).1 = (answer ev.1 m).1 := by
  cases op with
  | resize newSize fresh =>
    rcases h with heq | hnone
    · have hsame : move m (.resize newSize fresh) = m := by
        simp [move, reallocates, Op.apply, Sampler_setHistorySize, heq]
      rw [hsame]
    · rw [hnone ev hev] at hload
      cases hload
  | store v =>
    unfold move
    simp only [reallocates, Bool.and_false, Bool.false_eq_true, if_false]
    cases hs : Op.apply (.store v) m.hist with
    | none => rfl
    | some h' =>
      obtain ⟨hsize, h0, hlt, hrecent⟩ := store_recent hs
      refine answer_load hload hsize rfl fun array i he => ?_
      rw [hrecent, read_set h0 hlt]
      split
      · rename_i hi
        rcases h with hslot | hsame
        · obtain ⟨e, r⟩ := ev
          cases he
          exact absurd (hi ▸ mem_slots hev) hslot
        · rw [hi, hsame]
      · rfl

/-- **Loads are stable**: while the sampler spares what is still to be loaded, every load of a run
is answered as in the state the run starts in. -/
theorem loads_stable {α : Type} {p p' : Thread V α} {m m' : Mem V}
    {tr : List (Label (Call V) Call.Answer (Op V))} (hrun : Amid p m tr p' m')
    (hspared : Spared m tr) :
    ∀ ev ∈ acts tr, isLoad ev.1 = true → ev.2 = (answer ev.1 m).1 := by
  induction hrun with
  | refl => intro ev hev; cases hev
  | @act e k p' r m m₁ m' tr ha _ ih =>
    have hm : memStep m (.act ⟨e, r⟩) = m₁ := congrArg Prod.snd ha
    rw [Spared, hm] at hspared
    intro ev hev hload
    rcases List.mem_cons.mp hev with rfl | hev
    · exact (congrArg Prod.fst ha).symm
    · obtain ⟨hhist, hblock⟩ := answer_keeps e m
      rw [ih hspared ev hev hload, ← hm]
      exact answer_load hload (congrArg _ hhist) hblock fun array i _ =>
        congrArg (fun h : History V => read h.recent i) hhist
  | @env p p' op m m₁ m' tr hm _ ih =>
    have hm' : memStep m (.env op) = m₁ := hm
    rw [Spared, hm'] at hspared
    intro ev hev hload
    rw [ih hspared.2 ev hev hload, ← hm]
    exact spares_load hspared.1 hev hload

/-! ## What is left of a request once its moment has come -/

/-- Neither the length nor the write index is loaded. -/
def NoIndex (ev : Event (Call V) Call.Answer) : Prop :=
  ev.1 ≠ .historyCount ∧ ev.1 ≠ .recentIndex

section

omit [Zero V] [DecidableEq V]

theorem load_noIndex {α : Type} {e : Call V} {k : e.Answer → Thread V α}
    (he : e ≠ .historyCount ∧ e ≠ .recentIndex)
    (hk : ∀ r, Always NoIndex (k r) fun _ => True) : Always NoIndex (.act e k) fun _ => True :=
  .act (fun _ => he) hk

theorem sendNumList_noIndex {N_list : NumList V}
    (h : ∀ i, Always NoIndex (N_list i) fun _ => True) (n : Int) :
    Always NoIndex (sendNumList N_list n) fun _ => True :=
  sendNumList_always h (fun _ _ _ => ⟨by simp, by simp⟩) n

theorem getSend_noIndex (n j : Int) :
    Always NoIndex (getSend n j : Thread V Done) fun _ => True := by
  refine (getLoop_always (fun _ => ⟨by simp, by simp⟩) (fun _ => ⟨by simp, by simp⟩)
    (fun _ _ _ => ⟨by simp, by simp⟩) _ _ _ _).bind fun N_list _ => ?_
  cases N_list with
  | none => exact .ret trivial
  | some N_list => exact sendNumList_noIndex (fun i => .ret trivial) n

/-- A spared rest of a request that loads no index takes the one course it has in the state `m`. -/
theorem spared_unique {p : Thread V Done} {m : Mem V} {d d' : Done}
    {tr : List (Label (Call V) Call.Answer (Op V))} {evs : List (Event (Call V) Call.Answer)}
    (hloads : ∀ ev ∈ acts tr, isLoad ev.1 = true → ev.2 = (answer ev.1 m).1)
    (ht : Trace p (acts tr) d) (hp : Always NoIndex p fun _ => True)
    (ho : Oracle (fun e => (answer e m).1) p evs d') : acts tr = evs ∧ d = d' := by
  refine Oracle.unique ⟨ht, fun ev hev => ?_⟩ ho
  obtain ⟨e, r⟩ := ev
  have hno := (hp _ _ ht).1 _ hev
  cases e with
  | recent => exact hloads _ hev rfl
  | arraySize => exact hloads _ hev rfl
  | element array i => exact hloads _ hev rfl
  | historyCount => exact absurd rfl hno.1
  | recentIndex => exact absurd rfl hno.2
  | lock => rfl
  | unlock => rfl
  | sendto msg => rfl

end

/-! ## Snapshots -/

/-- What a request sends when nothing else runs: the first `historyCount` elements of the array, or
what `Sampler_get_N` returns. -/
def content : Request → History V → Option (List V)
  | .history, h => some (h.recent.take h.historyCount.toNat)
  | .get n, h => (Sampler.Sampler_get_N n h).join

/-- The sampler spares the request.

* `history`: when the length is loaded the history is well formed; from then on every step of the
  sampler spares what is still to be loaded.
* `get n`: `n` is not negative and not above the length when it is loaded for the second time;
  when the write index is loaded the history is well formed and of the size loaded before, `n` is
  not above its length, and from then on every step spares what is still to be loaded. -/
def SparesRequest (m : Mem V) (tr : List (Label (Call V) Call.Answer (Op V))) : Request → Prop
  | .history => ∀ xs n ys, tr = xs ++ [.act ⟨.historyCount, n⟩] ++ ys →
      WellFormed (after memStep m xs).hist ∧ Spared (after memStep m xs) ys
  | .get n => 0 ≤ n ∧
      (∀ xs c ys c' zs,
        tr = xs ++ [.act ⟨.historyCount, c⟩] ++ ys ++ [.act ⟨.historyCount, c'⟩] ++ zs →
          n ≤ (after memStep m (xs ++ [.act ⟨.historyCount, c⟩] ++ ys)).hist.historyCount) ∧
      ∀ xs a ys r zs,
        tr = xs ++ [.act ⟨.arraySize, a⟩] ++ ys ++ [.act ⟨.recentIndex, r⟩] ++ zs →
          let m' := after memStep m (xs ++ [.act ⟨.arraySize, a⟩] ++ ys)
          WellFormed m'.hist ∧ (after memStep m xs).hist.arraySize = m'.hist.arraySize ∧
            n ≤ m'.hist.historyCount ∧ Spared m' zs

omit [Zero V] [DecidableEq V] in
@[simp] theorem acts_moves (ls : List (Op V)) :
    acts (ls.map .env : List (Label (Call V) Call.Answer (Op V))) = [] := by
  induction ls with
  | nil => rfl
  | cons l ls ih => exact ih

/-- While the UDP thread holds the mutex the array keeps its name. -/
theorem locked_moves {m : Mem V} (hlocked : m.locked = true) (ls : List (Op V)) :
    (after memStep m (ls.map .env)).locked = true ∧
      (after memStep m (ls.map .env)).block = m.block := by
  induction ls generalizing m with
  | nil => exact ⟨hlocked, rfl⟩
  | cons op ls ih =>
    have hstep : (move m op).locked = true ∧ (move m op).block = m.block := by
      rw [move, hlocked, Bool.true_and]
      split
      · exact ⟨hlocked, rfl⟩
      · split
        · exact ⟨hlocked, rfl⟩
        · exact ⟨rfl, rfl⟩
    obtain ⟨h1, h2⟩ := ih hstep.1
    exact ⟨h1, h2.trans hstep.2⟩

/-- The end of a spared request: it loads no index, and with the answers of `m` it sends `vs`. -/
theorem spared_rest {p : Thread V Done} {m m' : Mem V} {d : Done} {vs : List V}
    {ys : List (Label (Call V) Call.Answer (Op V))} (hrun : Amid p m ys (.ret d) m')
    (hspared : Spared m ys) (hp : Always NoIndex p fun _ => True)
    (ho : ∃ evs, Oracle (fun e => (answer e m).1) p evs .sent ∧ numbers evs = vs) :
    d = .sent ∧ numbers (acts ys) = vs := by
  obtain ⟨evs, ho, hnum⟩ := ho
  obtain ⟨rfl, rfl⟩ := spared_unique (loads_stable hrun hspared) (hrun.trace rfl) hp ho
  exact ⟨rfl, hnum⟩

omit [DecidableEq V] in
/-- With the answers of one state, the first `historyCount` elements are sent. -/
theorem historySend_oracle {m : Mem V} (wf : WellFormed m.hist) :
    ∃ evs, Oracle (fun e => (answer e m).1)
        (sendNumList (load_element m.block) m.hist.historyCount) evs .sent ∧
      messages evs = (rows 0 (m.hist.recent.take m.hist.historyCount.toNat)).map .numbers := by
  have hcount := wf.count_le
  have hcount0 := wf.count_nonneg
  have hlen := wf.length
  have hread : ∀ i : Int, 0 ≤ i → i < m.hist.historyCount →
      read m.hist.recent i = some ((read m.hist.recent i).getD 0) := by
    intro i h0 hi
    obtain ⟨v, hv⟩ := @read_inside V m.hist.recent i h0 (by omega)
    rw [hv]; rfl
  have htake := @take_eq_between V m.hist.recent (fun i => (read m.hist.recent i).getD 0)
    m.hist.historyCount.toNat (by omega) fun i h0 hi => hread i h0 (by omega)
  rw [Int.toNat_of_nonneg hcount0] at htake
  rw [htake]
  exact sendNumList_oracle fun i h0 hi =>
    load_element_oracle ((if_pos rfl).trans (hread i h0 hi))

omit [DecidableEq V] in
/-- With the answers of one state, the array that `Sampler_get_N` returns there is sent. -/
theorem getSend_content {m : Mem V} (wf : WellFormed m.hist) {n : Nat}
    (hn : (n : Int) ≤ m.hist.historyCount) {ns : List V}
    (hns : Sampler.Sampler_get_N n m.hist = some (some ns)) :
    ∃ evs, Oracle (fun e => (answer e m).1)
        (getSend n (m.hist.arraySize + (m.hist.recentIndex - n + 1))) evs .sent ∧
      messages evs = (rows 0 ns).map .numbers := by
  have hread : ∀ i : Int, 0 ≤ i → i < n → read m.hist.recent
      ((m.hist.arraySize + (m.hist.recentIndex - n + 1) + i).tmod m.hist.arraySize) =
        some ((read m.hist.recent ((m.hist.arraySize + (m.hist.recentIndex - n + 1) + i).tmod
          m.hist.arraySize)).getD 0) := by
    intro i h0 _
    obtain ⟨v, hv⟩ := get_N_read wf hn h0
    rw [hv]; rfl
  obtain ⟨evs, ho, hmessages⟩ := @getSend_oracle V (fun e => (answer e m).1) n
    (m.hist.arraySize + (m.hist.recentIndex - n + 1)) m.hist.arraySize m.block _ (by omega) rfl rfl
    fun i h0 hi => (if_pos rfl).trans (hread i h0 hi)
  obtain rfl := Option.some.inj (Option.some.inj (hns.symm.trans (get_N_eq wf hn hread)))
  exact ⟨evs, ho, hmessages⟩

/-- **A spared `history` request** sends the content the history has when its length is loaded. -/
theorem history_snapshot {m m' : Mem V} {tr : List (Label (Call V) Call.Answer (Op V))} {d : Done}
    (hrun : Amid (handleRequest .history) m tr (.ret d) m')
    (hspares : SparesRequest m tr .history) :
    d = .sent ∧ ∃ xs ys, tr = xs ++ ys ∧
      content .history (after memStep m xs).hist = some (numbers (acts tr)) := by
  obtain ⟨ls₀, p₀, _, hp₀, rfl, h₀⟩ := Reaches.act (Interfered.reaches hrun)
  obtain ⟨ls₁, p₁, block, hp₁, hblock, h₁⟩ := Reaches.act h₀
  obtain ⟨ls₂, p₂, _, hp₂, rfl, ys, htr, hrest⟩ := Reaches.act h₁
  obtain ⟨wf, hspared⟩ := hspares p₂ _ ys htr
  -- the mutex keeps the array until its length is loaded
  have hl₁ : (after memStep m p₁).locked = true := by
    rw [hp₁, after_append]
    exact (locked_moves (by rw [after_append]; rfl) ls₁).1
  have hb₂ : block = (after memStep m p₂).block := by
    rw [hblock, hp₂, after_append, after_append]
    exact (locked_moves hl₁ ls₂).2.symm
  have hprefix : numbers (acts tr) = numbers (acts ys) := by
    rw [htr, hp₂, hp₁, hp₀]
    simp only [acts_append, acts_moves, numbers_append]
    rfl
  rw [after_append] at hrest
  subst hb₂
  generalize hs : after memStep m p₂ = s at *
  change Amid (.act .unlock fun _ => sendNumList (load_element s.block) s.hist.historyCount) s ys
    (.ret d) m' at hrest
  have hnoIndex : ∀ n, Always NoIndex
      (.act .unlock fun _ => sendNumList (load_element s.block) n : Thread V Done) fun _ => True :=
    fun n => load_noIndex (by simp) fun _ => sendNumList_noIndex (fun i =>
      load_noIndex (by simp) fun _ => .ret trivial) n
  obtain ⟨evs, ho, hmessages⟩ := historySend_oracle wf
  obtain ⟨hd, hsent⟩ := spared_rest hrest hspared (hnoIndex _) ⟨_, .act ho, rfl⟩
  refine ⟨hd, p₂, .act ⟨.historyCount, s.hist.historyCount⟩ :: ys,
    by rw [htr, List.append_assoc]; rfl, ?_⟩
  rw [hs, hprefix, hsent, content, ← numbers_of_rows hmessages]
  rfl

/-- **A spared `get N` request** is refused or sends what the history has when its write index is
loaded. -/
theorem get_snapshot {n : Int} {m m' : Mem V} {tr : List (Label (Call V) Call.Answer (Op V))}
    {d : Done} (hrun : Amid (handleRequest (.get n)) m tr (.ret d) m')
    (hspares : SparesRequest m tr (.get n)) :
    d = .refused ∨ d = .sent ∧ ∃ xs ys, tr = xs ++ ys ∧
      content (.get n) (after memStep m xs).hist = some (numbers (acts tr)) := by
  obtain ⟨hn, hsecond, hmoment⟩ := hspares
  rw [handle_get] at hrun
  obtain ⟨ls₀, p₀, _, hp₀, rfl, h₀⟩ := Reaches.act (Interfered.reaches hrun)
  change Reaches answer move m tr _
    (if (after memStep m p₀).hist.historyCount < n then _ else _) d m' at h₀
  by_cases hrefused : (after memStep m p₀).hist.historyCount < n
  · rw [if_pos hrefused] at h₀
    obtain ⟨_, _, _, -, -, hret⟩ := Reaches.act h₀
    exact .inl (Reaches.ret hret)
  · rw [if_neg hrefused] at h₀
    obtain ⟨ls₁, p₁, _, hp₁, rfl, h₁⟩ := Reaches.act h₀
    have hc₁ : n ≤ (after memStep m p₁).hist.historyCount := by
      obtain ⟨ys, htr, -⟩ := h₁
      rw [hp₁] at htr ⊢
      exact hsecond p₀ _ (ls₁.map .env) _ ys htr
    change Reaches answer move m tr _ (getChecked n (after memStep m p₁).hist.historyCount) d m'
      at h₁
    rw [getChecked_eq hn hc₁] at h₁
    obtain ⟨ls₂, p₂, _, hp₂, rfl, h₂⟩ := Reaches.act h₁
    obtain ⟨ls₃, p₃, _, hp₃, rfl, ys, htr, hrest⟩ := Reaches.act h₂
    obtain ⟨wf, hsize, hcount, hspared⟩ := hmoment p₂ _ (ls₃.map .env) _ ys (by rw [htr, hp₃])
    rw [← hp₃] at wf hsize hcount hspared
    have hprefix : numbers (acts tr) = numbers (acts ys) := by
      rw [htr, hp₃, hp₂, hp₁, hp₀]
      simp only [acts_append, acts_moves, numbers_append]
      rfl
    rw [after_append] at hrest
    generalize hs : after memStep m p₃ = s at *
    change Amid (getSend n ((after memStep m p₂).hist.arraySize + (s.hist.recentIndex - n + 1)))
      s ys (.ret d) m' at hrest
    rw [hsize] at hrest
    obtain ⟨k, rfl⟩ := Int.eq_ofNat_of_zero_le hn
    obtain ⟨ns, hns⟩ := get_N_inside wf hcount
    obtain ⟨evs, ho, hmessages⟩ := getSend_content wf hcount hns
    obtain ⟨hd, hsent⟩ := spared_rest hrest hspared (getSend_noIndex _ _)
      ⟨evs, ho, numbers_of_rows hmessages⟩
    refine .inr ⟨hd, p₃, _, by rw [htr, List.append_assoc], ?_⟩
    rw [hs, hprefix, hsent, content, hns]
    rfl

/-- **Queries are snapshots**: a list request that the sampler spares makes no invalid access, and
the list it sends, when it is not refused, is the content of the history at one moment of the
request. -/
theorem query_snapshot {req : Request} {m m' : Mem V}
    {tr : List (Label (Call V) Call.Answer (Op V))} {d : Done}
    (hrun : Amid (handleRequest req) m tr (.ret d) m') (hspares : SparesRequest m tr req) :
    d ≠ .fault ∧ (d = .sent → ∃ xs ys, tr = xs ++ ys ∧
      content req (after memStep m xs).hist = some (numbers (acts tr))) := by
  cases req with
  | history =>
    obtain ⟨rfl, hmoment⟩ := history_snapshot hrun hspares
    exact ⟨by simp, fun _ => hmoment⟩
  | get n =>
    rcases get_snapshot hrun hspares with rfl | ⟨rfl, hmoment⟩
    · exact ⟨by simp, by simp⟩
    · exact ⟨by simp, fun _ => hmoment⟩

/-! ## Two runs -/

/-- Three samples in an array of three. -/
def threeSamples : Mem Int := ⟨⟨[1, 2, 3], 3, 0, 3⟩, 0, false⟩

/-- A `history` request; the sampler takes the steps `ops` after the first element was loaded. -/
def historyAmid (ops : List (Op Int)) : Interleaved (Call Int) Call.Answer (Mem Int) (Op Int) Done :=
  runAmid answer move (handleRequest .history) [[], [], [], [], [], ops] threeSamples

/-- The request loads the length. -/
def isLengthLoad : Label (Call V) Call.Answer (Op V) → Bool
  | .act ⟨.historyCount, _⟩ => true
  | _ => false

/-- One store, into the slot that was loaded, is spared. -/
theorem query_snapshot_three :
    (historyAmid [.store 10]).value ≠ .fault ∧ ((historyAmid [.store 10]).value = .sent →
      ∃ xs ys, (historyAmid [.store 10]).labels = xs ++ ys ∧
        content .history (after memStep threeSamples xs).hist =
          some (numbers (acts (historyAmid [.store 10]).labels))) := by
  refine query_snapshot (runAmid_interfered answer move _ _ _) ?_
  intro xs n ys htr
  have honly : ∀ k ∈ List.range 9,
      ((historyAmid [.store 10]).labels[k]?).any isLengthLoad = true → k = 2 := by decide +kernel
  have hlen : xs.length + 1 + ys.length = 9 := by
    have := congrArg List.length htr
    rw [List.length_append, List.length_append] at this
    exact this.symm.trans (by decide +kernel)
  have hxs : xs.length = 2 := by
    refine honly _ (List.mem_range.mpr (by omega)) ?_
    rw [htr]
    simp [isLengthLoad]
  have hx : xs = (historyAmid [.store 10]).labels.take 2 := by
    rw [htr, ← hxs, List.append_assoc, List.take_left]
  have hy : ys = (historyAmid [.store 10]).labels.drop 3 := by
    rw [htr, List.drop_left' (by simp [hxs])]
  rw [hx, hy]
  exact ⟨by constructor <;> decide +kernel, by decide +kernel⟩

/-- Two stores after the first element was loaded: the list sent is half old and half new. -/
theorem torn_history :
    ¬ ∀ (req : Request) (m m' : Mem Int) (tr : List (Label (Call Int) Call.Answer (Op Int)))
      (d : Done), WellFormed m.hist → Amid (handleRequest req) m tr (.ret d) m' →
        d ≠ .fault ∧ (d = .sent → ∃ xs ys, tr = xs ++ ys ∧
          content req (after memStep m xs).hist = some (numbers (acts tr))) := by
  intro hall
  obtain ⟨-, hsent⟩ := hall .history threeSamples _ _ _ (by constructor <;> decide)
    (runAmid_interfered answer move _ [[], [], [], [], [], [.store 10, .store 20]] _)
  obtain ⟨xs, ys, htr, hcontent⟩ := hsent (by decide +kernel)
  have hnever : ∀ k ∈ List.range 11, content .history (after memStep threeSamples
      ((historyAmid [.store 10, .store 20]).labels.take k)).hist ≠ some [1, 20, 3] := by
    decide +kernel
  have htake : (historyAmid [.store 10, .store 20]).labels.take xs.length = xs := by
    rw [historyAmid, htr, List.take_left]
  have hlen : xs.length ≤ 10 := by
    have := congrArg List.length htr
    rw [List.length_append] at this
    exact (Nat.le_add_right _ _).trans (this.symm.trans (by decide +kernel)).le
  refine hnever xs.length (List.mem_range.mpr (by omega)) ?_
  rw [htake, hcontent]
  decide +kernel

end Udp
