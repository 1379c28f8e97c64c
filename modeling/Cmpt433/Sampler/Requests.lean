import Cmpt433.Lib.Interaction
import Cmpt433.Sampler.Operations

/-!
# The list requests of the UDP thread (`work/as2/udpListen.c`)

`handleRequest` for `history` and `get N`, with the functions of `sampler.c` it calls, as
programs over single loads of the sampler's variables.  The sampler thread may move between any
two of them.

* An array is named by a number; `sampler.c` has one live array at a time, and loading an element
  of another one answers `none`, as does a load outside the array.  The request then ends in
  `fault`.
* The array that `Sampler_get_N` returns is the UDP thread's own, so its elements are plain values.
* A datagram is the list of the pieces that are concatenated in `messageTx`; numbers are
  formatted by `%5.3f`.
* `sendNumList_always`, `getLoop_always` — what the surroundings cannot change about the calls that
  the loops make.
-/

set_option autoImplicit false

namespace Udp

open Interaction CheckedArray Sampler

/-- One `strcpy` or `strcat` into `messageTx`: `"%5.3f  "`, `"%5.3f, "` or a newline. -/
inductive Piece (V : Type) where
  | first (v : V)
  | item (v : V)
  | newline
  deriving DecidableEq

/-- A datagram. -/
inductive Msg (V : Type) where
  | numbers (pieces : List (Piece V))
  | text (s : String)
  deriving DecidableEq

variable {V : Type}

/-- The accesses of the UDP thread to what it shares, and its replies. -/
inductive Call (V : Type) where
  | lock
  | unlock
  | recent
  | arraySize
  | recentIndex
  | historyCount
  | element (array : Nat) (i : Int)
  | sendto (msg : Msg V)
  deriving DecidableEq

def Call.Answer : Call V → Type
  | .recent => Nat
  | .arraySize => Int
  | .recentIndex => Int
  | .historyCount => Int
  | .element _ _ => Option V
  | _ => Unit

abbrev Thread (V : Type) := Prog (Call V) Call.Answer

def lock : Thread V Unit := .act .lock .ret
def unlock : Thread V Unit := .act .unlock .ret
def load_recent : Thread V Nat := .act .recent .ret
def load_arraySize : Thread V Int := .act .arraySize .ret
def load_recentIndex : Thread V Int := .act .recentIndex .ret
def load_historyCount : Thread V Int := .act .historyCount .ret
def load_element (array : Nat) (i : Int) : Thread V (Option V) := .act (.element array i) .ret
def sendto (msg : Msg V) : Thread V Unit := .act (.sendto msg) .ret

/-- How a request ends: refused with a text, sent as a list, or stopped by an invalid access. -/
inductive Done where
  | refused
  | sent
  | fault
  deriving DecidableEq

/-- A list to be sent: an access to its `i`-th element. -/
abbrev NumList (V : Type) := Int → Thread V (Option V)

/-- The inner loop of `sendNumList`, up to `bound`, `k` rounds at most. -/
def sendRow (N_list : NumList V) (n bound : Int) :
    Nat → Int → List (Piece V) → Thread V (Option (List (Piece V)))
  | 0, _, messageTx => return some messageTx
  | k + 1, i, messageTx =>
    if i < bound ∧ i < n then do
      let messageTx := if i.tmod 20 = 0 then messageTx ++ [.newline] else messageTx
      match ← N_list i with
      | none => return none
      | some v => sendRow N_list n bound k (i + 1) (messageTx ++ [.item v])
    else return some messageTx

/-- The outer loop, `k` rounds at most. -/
def sendRows (N_list : NumList V) (n : Int) : Nat → Int → Thread V Done
  | 0, _ => return .sent
  | k + 1, j =>
    if j < n then do
      match ← N_list j with
      | none => return .fault
      | some v =>
        let j := j + 1
        match ← sendRow N_list n (j + 200) 200 j [.first v] with
        | none => return .fault
        | some messageTx =>
          sendto (.numbers (messageTx ++ [.newline]))
          sendRows N_list n k (j + 200)
    else return .sent

def sendNumList (N_list : NumList V) (n : Int) : Thread V Done := sendRows N_list n n.toNat 0

/-- The array and the length. -/
def Sampler_getHistory : Thread V (Nat × Int) := do
  lock
  let ret ← load_recent
  let length ← load_historyCount
  unlock
  return (ret, length)

/-- The loop of `Sampler_get_N`: `N_list` holds the first `i` elements. -/
def getLoop (j : Int) : Nat → Int → List V → Thread V (Option (List V))
  | 0, _, N_list => return some N_list
  | k + 1, i, N_list => do
    let arraySize ← load_arraySize
    let recent ← load_recent
    match ← load_element recent ((j + i).tmod arraySize) with
    | none => return none
    | some v => getLoop j k (i + 1) (N_list ++ [v])

/-- `Sampler_get_N` once `historyCount` is loaded.  The returned pointer: `none` after an invalid
access, `some none` for null. -/
def get_N_from (n historyCount : Int) : Thread V (Option (Option (List V))) :=
  if n > historyCount then return some none
  else if n < 0 then return none
  else do
    let arraySize ← load_arraySize
    let recentIndex ← load_recentIndex
    match ← getLoop (arraySize + (recentIndex - n + 1)) n.toNat 0 [] with
    | none => return none
    | some N_list => return some (some N_list)

def Sampler_get_N (n : Int) : Thread V (Option (Option (List V))) := do
  let historyCount ← load_historyCount
  get_N_from n historyCount

inductive Request where
  | history
  | get (n : Int)
  deriving DecidableEq

def handleRequest : Request → Thread V Done
  | .get n => do
    let maxHistory ← load_historyCount
    if maxHistory < n then
      sendto (.text s!"Please enter a number between 1 and {maxHistory}\n")
      return .refused
    else
      match ← Sampler_get_N n with
      | none => return .fault
      | some none => sendNumList (fun _ => .ret none) n
      | some (some N_list) => sendNumList (fun i => .ret (read N_list i)) n
  | .history => do
    let (hist, length) ← Sampler_getHistory
    sendNumList (fun i => load_element hist i) length

/-! ## What a request sends -/

def Piece.number : Piece V → Option V
  | .first v => some v
  | .item v => some v
  | .newline => none

/-- The numbers in the datagrams sent, in order. -/
def numbers (evs : List (Event (Call V) Call.Answer)) : List V :=
  evs.flatMap fun
    | ⟨.sendto (.numbers pieces), _⟩ => pieces.filterMap Piece.number
    | _ => []

@[simp] theorem numbers_append (xs ys : List (Event (Call V) Call.Answer)) :
    numbers (xs ++ ys) = numbers xs ++ numbers ys := List.flatMap_append

/-- The messages sent, in order. -/
def messages (evs : List (Event (Call V) Call.Answer)) : List (Msg V) :=
  evs.filterMap fun
    | ⟨.sendto msg, _⟩ => some msg
    | _ => none

@[simp] theorem messages_append (xs ys : List (Event (Call V) Call.Answer)) :
    messages (xs ++ ys) = messages xs ++ messages ys := List.filterMap_append

@[simp] theorem messages_sendto (msg : Msg V) (r : (Call.sendto msg).Answer)
    (evs : List (Event (Call V) Call.Answer)) :
    messages (⟨.sendto msg, r⟩ :: evs) = msg :: messages evs := rfl

def Msg.values : Msg V → List V
  | .numbers pieces => pieces.filterMap Piece.number
  | .text _ => []

theorem numbers_eq (evs : List (Event (Call V) Call.Answer)) :
    numbers evs = (messages evs).flatMap Msg.values := by
  induction evs with
  | nil => rfl
  | cons ev evs ih =>
    obtain ⟨e, r⟩ := ev
    cases e with
    | sendto msg => cases msg <;> exact congrArg (_ ++ ·) ih
    | _ => exact ih

/-- The pieces of the elements `vs` from element `i` on, within a row. -/
def row : Nat → List V → List (Piece V)
  | _, [] => []
  | i, v :: vs => (if i % 20 = 0 then [.newline, .item v] else [.item v]) ++ row (i + 1) vs

/-- The datagrams of the elements `vs` from element `j` on. -/
def rows : Nat → List V → List (List (Piece V))
  | _, [] => []
  | j, v :: vs =>
    (.first v :: row (j + 1) (vs.take 200) ++ [.newline]) :: rows (j + 201) (vs.drop 200)
termination_by _ vs => vs.length

@[simp] theorem row_numbers (i : Nat) (vs : List V) :
    (row i vs).filterMap Piece.number = vs := by
  induction vs generalizing i with
  | nil => rfl
  | cons v vs ih =>
    rw [row, List.filterMap_append, ih]
    split <;> rfl

/-- No element is lost, sent twice or moved between the datagrams. -/
theorem rows_numbers (j : Nat) (vs : List V) :
    (rows j vs).flatMap (fun pieces => pieces.filterMap Piece.number) = vs := by
  fun_induction rows j vs with
  | case1 => rfl
  | case2 j v vs ih =>
    have hnewline : [(Piece.newline : Piece V)].filterMap Piece.number = [] := rfl
    have hfirst (ps : List (Piece V)) :
        (.first v :: ps).filterMap Piece.number = v :: ps.filterMap Piece.number := rfl
    rw [List.flatMap_cons, ih, List.filterMap_append, hnewline, List.append_nil, hfirst,
      row_numbers, List.cons_append, List.take_append_drop]

variable {f : (e : Call V) → e.Answer}

/-- With every element answered, a row takes up its elements in order. -/
theorem sendRow_oracle {N_list : NumList V} {val : Int → V} {n bound : Int} {k i : Nat}
    (hlist : ∀ t : Int, i ≤ t → t < n →
      ∃ evs, Oracle f (N_list t) evs (some (val t)) ∧ messages evs = [])
    (msg : List (Piece V)) :
    ∃ evs, Oracle f (sendRow N_list n bound k i msg) evs
        (some (msg ++ row i (between val i (min (min bound n) (i + k))))) ∧ messages evs = [] := by
  induction k generalizing i msg with
  | zero => exact ⟨[], by rw [between_nil (by omega), row, List.append_nil]; exact .ret _, rfl⟩
  | succ k ih =>
    unfold sendRow
    by_cases hlt : (i : Int) < bound ∧ (i : Int) < n
    · rw [if_pos hlt]
      obtain ⟨xs, hx, hnx⟩ := hlist i le_rfl hlt.2
      obtain ⟨ys, hy, hny⟩ := @ih (i + 1) (fun t ht hn => hlist t (by omega) hn)
        ((if (i : Int).tmod 20 = 0 then msg ++ [.newline] else msg) ++ [.item (val i)])
      have hmod : (i : Int).tmod 20 = 0 ↔ i % 20 = 0 := by
        rw [Int.tmod_eq_emod_of_nonneg (by omega)]
        omega
      have hend : min (min bound n) (i + (k + 1 : Nat)) = min (min bound n) ((i + 1 : Nat) + k) := by
        push_cast; congr 1; omega
      have hrow : (if (i : Int).tmod 20 = 0 then msg ++ [.newline] else msg) ++ [.item (val i)] ++
          row (i + 1) (between val (i + 1 : Nat) (min (min bound n) ((i + 1 : Nat) + k))) =
          msg ++ row i (between val i (min (min bound n) (i + (k + 1 : Nat)))) := by
        rw [@between_cons _ val i _ (by omega), row, hend, if_congr hmod rfl rfl]
        push_cast
        split <;> simp
      rw [hrow] at hy
      exact ⟨xs ++ ys, hx.bind hy, by rw [messages_append, hnx, hny]; rfl⟩
    · rw [if_neg hlt]
      exact ⟨[], by rw [between_nil (by omega), row, List.append_nil]; exact .ret _, rfl⟩

/-- With every element answered, the datagrams of the list are sent. -/
theorem sendRows_oracle {N_list : NumList V} {val : Int → V} {n : Int} {k j : Nat}
    (hlist : ∀ t : Int, j ≤ t → t < n →
      ∃ evs, Oracle f (N_list t) evs (some (val t)) ∧ messages evs = [])
    (hk : n - j ≤ k) :
    ∃ evs, Oracle f (sendRows N_list n k j) evs .sent ∧
      messages evs = (rows j (between val j n)).map .numbers := by
  induction k generalizing j with
  | zero => exact ⟨[], .ret _, by rw [between_nil (by omega), rows]; rfl⟩
  | succ k ih =>
    unfold sendRows
    by_cases hlt : (j : Int) < n
    · rw [if_pos hlt]
      obtain ⟨xs, hx, hnx⟩ := hlist j le_rfl hlt
      obtain ⟨ys, hy, hny⟩ := @sendRow_oracle V f N_list val n (j + 1 + 200) 200 (j + 1)
        (fun t ht hn => hlist t (by omega) hn) [.first (val j)]
      obtain ⟨zs, hz, hnz⟩ := @ih (j + 201) (fun t ht hn => hlist t (by omega) hn)
        (by push_cast at hk ⊢; omega)
      have hend : min (min ((j : Int) + 1 + 200) n) ((j + 1 : Nat) + (200 : Nat)) =
          min n (j + 1 + (200 : Nat)) := by push_cast; omega
      have hnext : ((j + 201 : Nat) : Int) = j + 1 + 200 := by push_cast; omega
      rw [hend] at hy
      rw [hnext] at hz hnz
      refine ⟨xs ++ (ys ++ (⟨.sendto (.numbers ([.first (val j)] ++ row (j + 1) (between val
        (j + 1 : Nat) (min n (j + 1 + (200 : Nat)))) ++ [.newline])), f _⟩ :: zs)),
        hx.bind (hy.bind (.act hz)), ?_⟩
      rw [messages_append, messages_append, messages_sendto, hnx, hny, hnz, between_cons hlt, rows,
        between_take, between_drop]
      push_cast
      rfl
    · rw [if_neg hlt]
      exact ⟨[], .ret _, by rw [between_nil (by omega), rows]; rfl⟩

theorem sendNumList_oracle {N_list : NumList V} {val : Int → V} {n : Int}
    (hlist : ∀ i : Int, 0 ≤ i → i < n →
      ∃ evs, Oracle f (N_list i) evs (some (val i)) ∧ messages evs = []) :
    ∃ evs, Oracle f (sendNumList N_list n) evs .sent ∧
      messages evs = (rows 0 (between val 0 n)).map .numbers :=
  @sendRows_oracle V f N_list val n n.toNat 0 hlist (by omega)

theorem numbers_of_rows {evs : List (Event (Call V) Call.Answer)} {j : Nat} {vs : List V}
    (h : messages evs = (rows j vs).map .numbers) : numbers evs = vs := by
  rw [numbers_eq, h, List.flatMap_map]
  exact rows_numbers j vs

theorem load_element_oracle {array : Nat} {i : Int} {v : V} (h : f (.element array i) = some v) :
    ∃ evs, Oracle f (load_element array i) evs (some v) ∧ messages evs = [] := by
  refine ⟨[⟨.element array i, f (.element array i)⟩], ?_, rfl⟩
  rw [← h]
  exact Oracle.act (Oracle.ret _)

/-- With every access answered, the loop of `Sampler_get_N` collects its elements in order. -/
theorem getLoop_oracle {j size : Int} {block : Nat} {w : Int → V} (hsize : f .arraySize = size)
    (hblock : f .recent = block) {k : Nat} {i : Int}
    (hw : ∀ t, i ≤ t → t < i + k → f (.element block ((j + t).tmod size)) = some (w t))
    (N_list : List V) :
    ∃ evs, Oracle f (getLoop j k i N_list) evs (some (N_list ++ between w i (i + k))) ∧
      messages evs = [] := by
  subst hsize hblock
  induction k generalizing i N_list with
  | zero => exact ⟨[], by rw [between_nil (by omega), List.append_nil]; exact .ret _, rfl⟩
  | succ k ih =>
    have hi := hw i le_rfl (by omega)
    obtain ⟨evs, ho, hn⟩ := @ih (i + 1) (N_list ++ [w i])
      (fun t h1 h2 => hw t (by omega) (by push_cast; omega))
    have hlist : N_list ++ [w i] ++ between w (i + 1) (i + 1 + k) =
        N_list ++ between w i (i + (k + 1 : Nat)) := by
      rw [@between_cons _ w i _ (by push_cast; omega), List.append_assoc, List.singleton_append,
        show i + ((k + 1 : Nat) : Int) = i + 1 + k by push_cast; omega]
    rw [hlist] at ho
    have hsteps : Oracle f (getLoop j (k + 1) i N_list)
        (⟨.arraySize, f .arraySize⟩ :: ⟨.recent, f .recent⟩ ::
          ⟨.element (f .recent) ((j + i).tmod (f .arraySize)), f (.element _ _)⟩ :: evs)
        (some (N_list ++ between w i (i + (k + 1 : Nat)))) := by
      refine .act (.act (.act ?_))
      simp only [hi]
      exact ho
    exact ⟨_, hsteps, hn⟩

/-- `get N` after the write index was loaded. -/
def getSend (n j : Int) : Thread V Done := do
  match ← getLoop j n.toNat 0 [] with
  | none => return .fault
  | some N_list => sendNumList (fun i => .ret (read N_list i)) n

/-- `get N` after its second check, `c` being the number of samples found there. -/
def getChecked (n c : Int) : Thread V Done := do
  match ← get_N_from n c with
  | none => return .fault
  | some none => sendNumList (fun _ => .ret none) n
  | some (some N_list) => sendNumList (fun i => .ret (read N_list i)) n

theorem handle_get (n : Int) :
    (handleRequest (.get n) : Thread V Done) = (do
      let maxHistory ← load_historyCount
      if maxHistory < n then
        sendto (.text s!"Please enter a number between 1 and {maxHistory}\n")
        return .refused
      else
        let c ← load_historyCount
        getChecked n c) := rfl

theorem getChecked_eq {n c : Int} (h0 : 0 ≤ n) (hc : n ≤ c) :
    (getChecked n c : Thread V Done) = (do
      let arraySize ← load_arraySize
      let recentIndex ← load_recentIndex
      getSend n (arraySize + (recentIndex - n + 1))) := by
  rw [getChecked, get_N_from, if_neg (by omega), if_neg (by omega), Prog.bind_assoc]
  congr 1
  funext arraySize
  rw [Prog.bind_assoc]
  congr 1
  funext recentIndex
  rw [Prog.bind_assoc, getSend]
  congr 1
  funext r
  cases r <;> rfl

theorem getSend_oracle {n j size : Int} {block : Nat} {w : Int → V} (hn : 0 ≤ n)
    (hsize : f .arraySize = size) (hblock : f .recent = block)
    (hw : ∀ i : Int, 0 ≤ i → i < n → f (.element block ((j + i).tmod size)) = some (w i)) :
    ∃ evs, Oracle f (getSend n j) evs .sent ∧
      messages evs = (rows 0 (between w 0 n)).map .numbers := by
  obtain ⟨xs, hx, hnx⟩ := @getLoop_oracle V f j size block w hsize hblock n.toNat 0
    (fun t h0 ht => hw t h0 (by omega)) []
  rw [List.nil_append, show (0 : Int) + n.toNat = n by omega] at hx
  obtain ⟨ys, hy, hny⟩ := @sendNumList_oracle V f
    (fun i => .ret (read (between w 0 n) i)) w n fun i h0 hi =>
      ⟨[], by rw [read_between, if_pos ⟨h0, hi⟩]; exact Oracle.ret _, rfl⟩
  exact ⟨xs ++ ys, hx.bind hy, by rw [messages_append, hnx, hny]; rfl⟩

/-! ## What every event of a request satisfies -/

section

variable {P : Event (Call V) Call.Answer → Prop} {N_list : NumList V}
  (hlist : ∀ i, Always P (N_list i) fun _ => True)

include hlist

/-- The inner loop sends nothing, and only appends to the message. -/
theorem sendRow_always {n bound : Int} (k : Nat) (i : Int) (msg : List (Piece V)) :
    Always P (sendRow N_list n bound k i msg) fun r => ∀ msg', r = some msg' → msg <+: msg' := by
  induction k generalizing i msg with
  | zero => exact .ret fun msg' h => by cases h; exact List.prefix_rfl
  | succ k ih =>
    unfold sendRow
    split
    · refine (hlist i).bind fun v _ => ?_
      cases v with
      | none => exact .ret fun msg' h => by cases h
      | some v =>
        refine (ih _ _).mono fun r hr msg' hmsg' => List.IsPrefix.trans ?_ (hr msg' hmsg')
        split
        · rw [List.append_assoc]
          exact List.prefix_append _ _
        · exact List.prefix_append _ _
    · exact .ret fun msg' h => by cases h; exact List.prefix_rfl

/-- Every datagram of a list starts with the piece that is copied. -/
theorem sendNumList_always
    (hsend : ∀ v rest r, P ⟨.sendto (.numbers (.first v :: rest)), r⟩) (n : Int) :
    Always P (sendNumList N_list n) fun _ => True := by
  have hrows : ∀ k j, Always P (sendRows N_list n k j) fun _ => True := by
    intro k
    induction k with
    | zero => intro j; exact .ret trivial
    | succ k ih =>
      intro j
      unfold sendRows
      split
      · refine (hlist j).bind fun v _ => ?_
        cases v with
        | none => exact .ret trivial
        | some v =>
          refine (sendRow_always hlist _ _ _).bind fun msg hmsg => ?_
          cases msg with
          | none => exact .ret trivial
          | some msg =>
            obtain ⟨rest, rfl⟩ := hmsg msg rfl
            have hdatagram := hsend v (rest ++ [Piece.newline])
            rw [← List.cons_append, ← List.singleton_append] at hdatagram
            exact .act hdatagram fun _ => ih _
      · exact .ret trivial
  exact hrows _ _

end

theorem getLoop_always {P : Event (Call V) Call.Answer → Prop} (hsize : ∀ r, P ⟨.arraySize, r⟩)
    (hrecent : ∀ r, P ⟨.recent, r⟩) (helement : ∀ block i r, P ⟨.element block i, r⟩) (j : Int)
    (k : Nat) (i : Int) (N_list : List V) :
    Always P (getLoop j k i N_list) fun _ => True := by
  induction k generalizing i N_list with
  | zero => exact .ret trivial
  | succ k ih =>
    refine .act hsize fun size => .act hrecent fun block => .act (helement _ _) fun v => ?_
    cases v with
    | none => exact .ret trivial
    | some v => exact ih _ _

end Udp
