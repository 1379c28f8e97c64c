import Cmpt433.Lib.Runs

/-!
# Requests over a network that loses, repeats and reorders

Every request goes out from a socket of its own, which is closed by the first reply that reaches it
or by its timeout.  The server answers requests one at a time; its state changes in between, and
also while it handles one: `M` says what the rest of it does meanwhile.

* `step` — a request, what the network does with a datagram, a timeout, or a move of the server.
* `Traced` — what is in flight belongs to a request, and every reply to a state in which the server
  handled that request.
* `traced_run`, `served_once` — every run keeps it; where nothing is repeated, a request is handled
  at most once.
-/

set_option autoImplicit false

namespace RequestReply

open Runs

variable {σ M Req Rep E : Type}

/-- A request, and what has come of it: a reply, or `none` from the timeout. -/
structure Client (Req Rep : Type) where
  request : Req
  outcome : Option (Option Rep)

structure State (σ M Req Rep : Type) where
  clients : List (Client Req Rep)
  /-- The datagrams in flight, each with the socket it comes from or goes to. -/
  toServer : List (ℕ × Req)
  toClient : List (ℕ × Rep)
  server : σ
  /-- The requests that have been handled, each with what was done meanwhile and the server's state
  before. -/
  served : List (ℕ × M × σ)
  /-- What the clients have come to, in order. -/
  outcomes : List (ℕ × Option Rep)

inductive Label (M Req E : Type) where
  | request (q : Req)
  /-- A request reaches the server, and is handled. -/
  | arrive (i : ℕ) (m : M)
  | loseRequest (i : ℕ)
  | repeatRequest (i : ℕ)
  /-- A reply reaches its socket. -/
  | deliver (i : ℕ)
  | loseReply (i : ℕ)
  | repeatReply (i : ℕ)
  | timeout (k : ℕ)
  /-- The server's state changes. -/
  | other (e : E)

/-- A socket that is still open is closed. -/
def State.close (s : State σ M Req Rep) (k : ℕ) (o : Option Rep) : State σ M Req Rep :=
  match s.clients[k]? with
  | some ⟨q, none⟩ =>
    { s with clients := s.clients.set k ⟨q, some o⟩, outcomes := s.outcomes ++ [(k, o)] }
  | _ => s

/-- `handle` is `none` when the server does not receive any more. -/
def step (handle : M → σ → Req → Option (σ × List Rep)) (move : E → σ → σ) (s : State σ M Req Rep) :
    Label M Req E → State σ M Req Rep
  | .request q =>
    { s with
      clients := s.clients ++ [⟨q, none⟩]
      toServer := s.toServer ++ [(s.clients.length, q)] }
  | .arrive i m =>
    match s.toServer[i]? with
    | none => s
    | some (k, q) =>
      match handle m s.server q with
      | none => { s with toServer := s.toServer.eraseIdx i }
      | some (server, rs) =>
        { s with
          toServer := s.toServer.eraseIdx i
          toClient := s.toClient ++ rs.map fun r => (k, r)
          server
          served := s.served ++ [(k, m, s.server)] }
  | .loseRequest i => { s with toServer := s.toServer.eraseIdx i }
  | .repeatRequest i => { s with toServer := s.toServer ++ s.toServer[i]?.toList }
  | .deliver i =>
    match s.toClient[i]? with
    | none => s
    | some (k, r) => { s with toClient := s.toClient.eraseIdx i }.close k (some r)
  | .loseReply i => { s with toClient := s.toClient.eraseIdx i }
  | .repeatReply i => { s with toClient := s.toClient ++ s.toClient[i]?.toList }
  | .timeout k => s.close k none
  | .other e => { s with server := move e s.server }

def start (server : σ) : State σ M Req Rep where
  clients := []
  toServer := []
  toClient := []
  server := server
  served := []
  outcomes := []

/-! ## What a reply belongs to -/

def State.requestOf (s : State σ M Req Rep) (k : ℕ) : Option Req :=
  s.clients[k]?.map Client.request

/-- The server handled the request of socket `k`, from the state `p.2` on. -/
def Handled (handle : M → σ → Req → Option (σ × List Rep)) (s : State σ M Req Rep) (k : ℕ)
    (p : M × σ) (q : Req) (after : σ × List Rep) : Prop :=
  (k, p) ∈ s.served ∧ s.requestOf k = some q ∧ handle p.1 p.2 q = some after

/-- `r` is a reply to the request of socket `k`. -/
def Replied (handle : M → σ → Req → Option (σ × List Rep)) (s : State σ M Req Rep) (k : ℕ)
    (r : Rep) : Prop :=
  ∃ p q after, Handled handle s k p q after ∧ r ∈ after.2

/-- `Ok` is what always holds of the server's state. -/
structure Traced (handle : M → σ → Req → Option (σ × List Rep)) (Ok : σ → Prop)
    (s : State σ M Req Rep) : Prop where
  server : Ok s.server
  served : ∀ x ∈ s.served, Ok x.2.2 ∧ ∃ q after, Handled handle s x.1 x.2 q after
  toServer : ∀ x ∈ s.toServer, s.requestOf x.1 = some x.2
  toClient : ∀ x ∈ s.toClient, Replied handle s x.1 x.2
  outcomes : ∀ k o, (k, o) ∈ s.outcomes ↔ ∃ q, s.clients[k]? = some ⟨q, some o⟩
  replied : ∀ k r, (k, some r) ∈ s.outcomes → Replied handle s k r
  once : (s.outcomes.map Prod.fst).Nodup

variable {handle : M → σ → Req → Option (σ × List Rep)} {move : E → σ → σ} {Ok : σ → Prop}
  {s s' : State σ M Req Rep}

theorem Traced.start {server : σ} (h : Ok server) : Traced handle Ok (start server) where
  server := h
  served := nofun
  toServer := nofun
  toClient := nofun
  outcomes k o := ⟨nofun, by rintro ⟨q, h⟩; cases h⟩
  replied := nofun
  once := List.nodup_nil

/-- `s'` is later than `s`. -/
structure Later (s s' : State σ M Req Rep) : Prop where
  served : s.served ⊆ s'.served
  requests : ∀ k q, s.requestOf k = some q → s'.requestOf k = some q

theorem Handled.later {k : ℕ} {p : M × σ} {q : Req} {after : σ × List Rep}
    (h : Handled handle s k p q after) (hlater : Later s s') : Handled handle s' k p q after :=
  ⟨hlater.served h.1, hlater.requests k q h.2.1, h.2.2⟩

theorem Replied.later {k : ℕ} {r : Rep} (h : Replied handle s k r) (hlater : Later s s') :
    Replied handle s' k r := by
  obtain ⟨p, q, after, hhandled, hr⟩ := h
  exact ⟨p, q, after, hhandled.later hlater, hr⟩

theorem Traced.served_later (h : Traced handle Ok s) (hlater : Later s s') :
    ∀ x ∈ s.served, Ok x.2.2 ∧ ∃ q after, Handled handle s' x.1 x.2 q after := by
  intro x hx
  obtain ⟨hok, q, after, hhandled⟩ := h.served x hx
  exact ⟨hok, q, after, hhandled.later hlater⟩

/-! ## The steps -/

theorem close_cases (s : State σ M Req Rep) (k : ℕ) (o : Option Rep) :
    s.close k o = s ∧ (∀ q, s.clients[k]? ≠ some ⟨q, none⟩) ∨
      ∃ q, s.clients[k]? = some ⟨q, none⟩ ∧ s.close k o =
        { s with clients := s.clients.set k ⟨q, some o⟩, outcomes := s.outcomes ++ [(k, o)] } := by
  unfold State.close
  split
  · rename_i q hq
    exact .inr ⟨q, hq, rfl⟩
  · rename_i hno
    exact .inl ⟨rfl, hno⟩

theorem requestOf_set {clients : List (Client Req Rep)} {k : ℕ} {q : Req} {o : Option Rep}
    (hk : clients[k]? = some ⟨q, none⟩) (j : ℕ) :
    (clients.set k ⟨q, some o⟩)[j]?.map Client.request = clients[j]?.map Client.request := by
  rw [List.getElem?_set]
  split
  · rename_i hkj
    subst hkj
    rw [if_pos (List.getElem?_eq_some_iff.mp hk).1, hk]
    rfl
  · rfl

theorem later_close (s : State σ M Req Rep) (k : ℕ) (o : Option Rep) : Later s (s.close k o) := by
  rcases close_cases s k o with ⟨heq, -⟩ | ⟨q, hq, heq⟩ <;> rw [heq]
  · exact ⟨List.Subset.refl _, fun _ _ hr => hr⟩
  · exact ⟨List.Subset.refl _, fun j r hr => (requestOf_set hq j).trans hr⟩

theorem later_request (s : State σ M Req Rep) (q : Req) :
    Later s (step handle move s (.request q : Label M Req E)) := by
  refine ⟨List.Subset.refl _, fun j r hr => ?_⟩
  obtain ⟨c, hc, rfl⟩ := Option.map_eq_some_iff.mp hr
  change (s.clients ++ [⟨q, none⟩])[j]?.map Client.request = _
  rw [List.getElem?_append_left (List.getElem?_eq_some_iff.mp hc).1, hc]
  rfl

/-- A socket is closed with a reply to its request, or without one. -/
theorem Traced.close (h : Traced handle Ok s) (k : ℕ) {o : Option Rep}
    (ho : ∀ r, o = some r → Replied handle s k r) : Traced handle Ok (s.close k o) := by
  have hlater := later_close s k o
  rcases close_cases s k o with ⟨heq, -⟩ | ⟨q, hq, heq⟩ <;> rw [heq] at hlater ⊢
  · exact h
  · have hlt : k < s.clients.length := (List.getElem?_eq_some_iff.mp hq).1
    have hnew : ∀ o', (k, o') ∉ s.outcomes := by
      intro o' hmem
      obtain ⟨q', hq'⟩ := (h.outcomes k o').mp hmem
      rw [hq] at hq'
      cases hq'
    refine ⟨h.server, h.served_later hlater, fun x hx => hlater.requests _ _ (h.toServer x hx),
      fun x hx => (h.toClient x hx).later hlater, fun j o' => ?_, fun j r hr => ?_, ?_⟩
    · rw [List.mem_append, List.mem_singleton, h.outcomes, List.getElem?_set]
      by_cases hj : k = j
      · subst hj
        rw [if_pos rfl, if_pos hlt, hq]
        constructor
        · rintro (⟨q', hq'⟩ | heq)
          · cases hq'
          · cases heq
            exact ⟨q, rfl⟩
        · rintro ⟨q', hq'⟩
          cases hq'
          exact .inr rfl
      · rw [if_neg hj]
        exact or_iff_left fun heq => hj (Prod.ext_iff.mp heq).1.symm
    · rcases List.mem_append.mp hr with hr | hr
      · exact (h.replied j r hr).later hlater
      · cases List.mem_singleton.mp hr
        exact (ho r rfl).later hlater
    · rw [List.map_append, List.nodup_append]
      refine ⟨h.once, List.nodup_singleton _, fun j hj k' hk' => ?_⟩
      obtain ⟨⟨j', o'⟩, hmem, rfl⟩ := List.mem_map.mp hj
      rintro rfl
      obtain rfl := List.mem_singleton.mp hk'
      exact hnew o' hmem

/-- Datagrams in flight may be lost, repeated and reordered. -/
theorem Traced.inFlight (h : Traced handle Ok s) {toServer : List (ℕ × Req)}
    {toClient : List (ℕ × Rep)} (hreq : toServer ⊆ s.toServer) (hrep : toClient ⊆ s.toClient) :
    Traced handle Ok { s with toServer, toClient } :=
  ⟨h.server, h.served, fun x hx => h.toServer x (hreq hx), fun x hx => h.toClient x (hrep hx),
    h.outcomes, h.replied, h.once⟩

theorem subset_repeat {α : Type} (xs : List α) (i : ℕ) : xs ++ xs[i]?.toList ⊆ xs := by
  intro x hx
  rcases List.mem_append.mp hx with hx | hx
  · exact hx
  · exact List.mem_of_getElem? (Option.mem_toList.mp hx)

theorem traced_step (hhandle : ∀ m p q after, Ok p → handle m p q = some after → Ok after.1)
    (hmove : ∀ e p, Ok p → Ok (move e p)) (h : Traced handle Ok s) (l : Label M Req E) :
    Traced handle Ok (step handle move s l) := by
  cases l with
  | request q =>
    have hlater := @later_request _ _ _ _ E handle move s q
    refine ⟨h.server, h.served_later hlater, fun x hx => ?_,
      fun x hx => (h.toClient x hx).later hlater, fun j o => ?_,
      fun j r hr => (h.replied j r hr).later hlater, h.once⟩
    · rcases List.mem_append.mp hx with hx | hx
      · exact hlater.requests _ _ (h.toServer x hx)
      · obtain rfl := List.mem_singleton.mp hx
        change (s.clients ++ [⟨q, none⟩])[s.clients.length]?.map Client.request = _
        rw [List.getElem?_concat_length]
        rfl
    · change (j, o) ∈ s.outcomes ↔ ∃ q', (s.clients ++ [⟨q, none⟩])[j]? = _
      rw [h.outcomes]
      constructor
      · rintro ⟨q', hq'⟩
        exact ⟨q', (List.getElem?_append_left (List.getElem?_eq_some_iff.mp hq').1).trans hq'⟩
      · rintro ⟨q', hq'⟩
        rcases Nat.lt_or_ge j s.clients.length with hj | hj
        · rw [List.getElem?_append_left hj] at hq'
          exact ⟨q', hq'⟩
        · rw [List.getElem?_append_right hj] at hq'
          cases List.mem_singleton.mp (List.mem_of_getElem? hq')
  | arrive i m =>
    simp only [step]
    split
    · exact h
    · rename_i k q hi
      split
      · exact h.inFlight (List.eraseIdx_subset ..) (List.Subset.refl _)
      · rename_i server rs hrun
        have hlater : Later s { s with
            toServer := s.toServer.eraseIdx i
            toClient := s.toClient ++ rs.map fun r => (k, r)
            server := server
            served := s.served ++ [(k, m, s.server)] } :=
          ⟨List.subset_append_left .., fun _ _ hr => hr⟩
        have hkq : s.requestOf k = some q := h.toServer _ (List.mem_of_getElem? hi)
        have hnow : (k, m, s.server) ∈ s.served ++ [(k, m, s.server)] :=
          List.mem_append_right _ List.mem_cons_self
        refine ⟨hhandle _ _ _ _ h.server hrun, fun x hx => ?_,
          fun x hx => h.toServer x (List.eraseIdx_subset hx), fun x hx => ?_, h.outcomes,
          fun j r hr => (h.replied j r hr).later hlater, h.once⟩
        · rcases List.mem_append.mp hx with hx | hx
          · exact h.served_later hlater x hx
          · obtain rfl := List.mem_singleton.mp hx
            exact ⟨h.server, q, (server, rs), hnow, hkq, hrun⟩
        · rcases List.mem_append.mp hx with hx | hx
          · exact (h.toClient x hx).later hlater
          · obtain ⟨r, hr, rfl⟩ := List.mem_map.mp hx
            exact ⟨(m, s.server), q, (server, rs), ⟨hnow, hkq, hrun⟩, hr⟩
  | deliver i =>
    simp only [step]
    split
    · exact h
    · rename_i k r hi
      refine (h.inFlight (List.Subset.refl _) (List.eraseIdx_subset ..)).close k ?_
      rintro r' heq
      cases heq
      exact h.toClient (k, r) (List.mem_of_getElem? hi)
  | loseRequest i => exact h.inFlight (List.eraseIdx_subset ..) (List.Subset.refl _)
  | repeatRequest i => exact h.inFlight (subset_repeat ..) (List.Subset.refl _)
  | loseReply i => exact h.inFlight (List.Subset.refl _) (List.eraseIdx_subset ..)
  | repeatReply i => exact h.inFlight (List.Subset.refl _) (subset_repeat ..)
  | timeout k => exact h.close k nofun
  | other e =>
    exact ⟨hmove e _ h.server, h.served, h.toServer, h.toClient, h.outcomes, h.replied, h.once⟩

/-- What a step does on the server's side. -/
theorem step_cases (s : State σ M Req Rep) (l : Label M Req E) :
    Later s (step handle move s l) ∧
      ((step handle move s l).served = s.served ∧
          ((step handle move s l).server = s.server ∨
            ∃ e, (step handle move s l).server = move e s.server) ∨
        ∃ x m r, x ∈ s.toServer ∧ handle m s.server x.2 = some r ∧
          (step handle move s l).served = s.served ++ [(x.1, m, s.server)] ∧
          (step handle move s l).server = r.1) := by
  have hsame : Later s s := ⟨List.Subset.refl _, fun _ _ hr => hr⟩
  have hclose : ∀ (s : State σ M Req Rep) k o,
      (s.close k o).served = s.served ∧ (s.close k o).server = s.server := by
    intro s k o
    rcases close_cases s k o with ⟨heq, -⟩ | ⟨q, -, heq⟩ <;> rw [heq] <;> exact ⟨rfl, rfl⟩
  cases l with
  | request q => exact ⟨later_request s q, .inl ⟨rfl, .inl rfl⟩⟩
  | arrive i m =>
    simp only [step]
    split
    · exact ⟨hsame, .inl ⟨rfl, .inl rfl⟩⟩
    · rename_i k q hi
      split
      · exact ⟨⟨List.Subset.refl _, fun _ _ hr => hr⟩, .inl ⟨rfl, .inl rfl⟩⟩
      · rename_i server rs hrun
        exact ⟨⟨List.subset_append_left .., fun _ _ hr => hr⟩,
          .inr ⟨(k, q), m, (server, rs), List.mem_of_getElem? hi, hrun, rfl, rfl⟩⟩
  | deliver i =>
    simp only [step]
    split
    · exact ⟨hsame, .inl ⟨rfl, .inl rfl⟩⟩
    · rename_i k r hi
      obtain ⟨hserved, hserver⟩ := hclose { s with toClient := s.toClient.eraseIdx i } k (some r)
      have hlater := later_close { s with toClient := s.toClient.eraseIdx i } k (some r)
      exact ⟨⟨hlater.served, hlater.requests⟩, .inl ⟨hserved, .inl hserver⟩⟩
  | timeout k =>
    obtain ⟨hserved, hserver⟩ := hclose s k none
    exact ⟨later_close s k none, .inl ⟨hserved, .inl hserver⟩⟩
  | loseRequest i | repeatRequest i | loseReply i | repeatReply i =>
    exact ⟨⟨List.Subset.refl _, fun _ _ hr => hr⟩, .inl ⟨rfl, .inl rfl⟩⟩
  | other e => exact ⟨⟨List.Subset.refl _, fun _ _ hr => hr⟩, .inl ⟨rfl, .inr ⟨e, rfl⟩⟩⟩

theorem traced_run (hhandle : ∀ m p q after, Ok p → handle m p q = some after → Ok after.1)
    (hmove : ∀ e p, Ok p → Ok (move e p)) {server : σ} (h : Ok server) (tr : List (Label M Req E)) :
    Traced handle Ok (after (step handle move) (start server) tr) := by
  have hstep : ∀ (s : State σ M Req Rep) (l : Label M Req E), Traced handle Ok s →
      Traced handle Ok (step handle move s l) := fun _ l hs => traced_step hhandle hmove hs l
  exact invariant_of_step hstep (Traced.start h) tr

/-! ## Nothing is handled twice -/

def Label.repeats : Label M Req E → Prop
  | .repeatRequest _ => True
  | _ => False

/-- The requests that have been handled or are in flight. -/
def State.known (s : State σ M Req Rep) : List ℕ := s.served.map Prod.fst ++ s.toServer.map Prod.fst

structure Fresh (s : State σ M Req Rep) : Prop where
  once : s.known.Nodup
  bound : ∀ k ∈ s.known, k < s.clients.length

theorem known_eraseIdx (s : State σ M Req Rep) (i : ℕ) :
    (s.served.map Prod.fst ++ (s.toServer.eraseIdx i).map Prod.fst).Sublist s.known :=
  ((List.eraseIdx_sublist ..).map _).append_left _

theorem Fresh.sublist (h : Fresh s) (hsub : s'.known.Sublist s.known)
    (hlength : s'.clients.length = s.clients.length) : Fresh s' :=
  ⟨h.once.sublist hsub, fun k hk => hlength ▸ h.bound k (hsub.subset hk)⟩

theorem close_frame (s : State σ M Req Rep) (k : ℕ) (o : Option Rep) :
    (s.close k o).known = s.known ∧ (s.close k o).clients.length = s.clients.length := by
  rcases close_cases s k o with ⟨heq, -⟩ | ⟨q, -, heq⟩ <;> rw [heq]
  · exact ⟨rfl, rfl⟩
  · exact ⟨rfl, List.length_set ..⟩

theorem fresh_step (h : Fresh s) (l : Label M Req E) (hl : ¬ l.repeats) :
    Fresh (step handle move s l) := by
  cases l with
  | request q =>
    have hknown : (step handle move s (.request q : Label M Req E)).known =
        s.known ++ [s.clients.length] := by
      simp [State.known, step]
    refine ⟨?_, fun k hk => ?_⟩
    · rw [hknown, List.nodup_append]
      refine ⟨h.once, List.nodup_singleton _, fun j hj k hk => ?_⟩
      obtain rfl := List.mem_singleton.mp hk
      exact Nat.ne_of_lt (h.bound j hj)
    · rw [hknown, List.mem_append, List.mem_singleton] at hk
      change k < (s.clients ++ [(⟨q, none⟩ : Client Req Rep)]).length
      rw [List.length_append, List.length_singleton]
      rcases hk with hk | rfl
      · exact Nat.lt_succ_of_lt (h.bound k hk)
      · exact Nat.lt_succ_self _
  | arrive i m =>
    simp only [step]
    split
    · exact h
    · rename_i k q hi
      split
      · exact h.sublist (known_eraseIdx s i) rfl
      · -- the request goes from those in flight to those handled
        have hperm :
            (s.toServer.map Prod.fst).Perm (k :: (s.toServer.eraseIdx i).map Prod.fst) := by
          obtain ⟨hlt, hget⟩ := List.getElem?_eq_some_iff.mp hi
          have hperm := (List.getElem_cons_eraseIdx_perm hlt).symm.map Prod.fst
          rw [hget] at hperm
          exact hperm
        have hknown : (s.served.map Prod.fst ++ [k] ++
            (s.toServer.eraseIdx i).map Prod.fst).Perm s.known := by
          rw [List.append_assoc]
          exact hperm.symm.append_left _
        constructor
        · simp only [State.known, List.map_append, List.map_cons, List.map_nil]
          exact hknown.nodup_iff.mpr h.once
        · intro j hj
          simp only [State.known, List.map_append, List.map_cons, List.map_nil] at hj
          exact h.bound j (hknown.mem_iff.mp hj)
  | deliver i =>
    simp only [step]
    split
    · exact h
    · rename_i k r hi
      obtain ⟨hknown, hlength⟩ :=
        close_frame { s with toClient := s.toClient.eraseIdx i } k (some r)
      exact h.sublist (hknown ▸ List.Sublist.refl _) hlength
  | loseRequest i => exact h.sublist (known_eraseIdx s i) rfl
  | repeatRequest i => exact absurd trivial hl
  | loseReply i | repeatReply i | other e => exact h.sublist (List.Sublist.refl _) rfl
  | timeout k =>
    obtain ⟨hknown, hlength⟩ := close_frame s k none
    exact h.sublist (hknown ▸ List.Sublist.refl _) hlength

/-- **Where no request is repeated, each is handled at most once.** -/
theorem served_once {server : σ} {tr : List (Label M Req E)} (h : ∀ l ∈ tr, ¬ l.repeats) :
    ((after (step handle move) (start server) tr).served.map Prod.fst).Nodup := by
  have hstep : ∀ (s : State σ M Req Rep) (l : Label M Req E), Fresh s → ¬ l.repeats →
      Fresh (step handle move s l) := fun _ l hs hl => fresh_step hs l hl
  have hstart : Fresh (start server : State σ M Req Rep) := ⟨List.nodup_nil, nofun⟩
  have hfresh := invariant hstep hstart ((throughout_iff_forall _ tr).mpr h)
  exact (List.nodup_append.mp hfresh.once).1

/-! ## The timeout -/

/-- The socket `k` has been closed. -/
def Closed (s : State σ M Req Rep) (k : ℕ) : Prop := ∃ q o, s.clients[k]? = some ⟨q, some o⟩

theorem closed_close {j : ℕ} (h : Closed s j) (k : ℕ) (o : Option Rep) :
    Closed (s.close k o) j := by
  obtain ⟨q, o', hj⟩ := h
  rcases close_cases s k o with ⟨heq, -⟩ | ⟨q', hq', heq⟩ <;> rw [heq]
  · exact ⟨q, o', hj⟩
  · have hne : k ≠ j := by
      rintro rfl
      rw [hj] at hq'
      cases hq'
    exact ⟨q, o', (List.getElem?_set_ne hne).trans hj⟩

theorem closed_step {j : ℕ} (h : Closed s j) (l : Label M Req E) :
    Closed (step handle move s l) j := by
  cases l with
  | request q =>
    obtain ⟨q', o, hj⟩ := h
    exact ⟨q', o, (List.getElem?_append_left (List.getElem?_eq_some_iff.mp hj).1).trans hj⟩
  | arrive i m =>
    simp only [step]
    split
    · exact h
    · split <;> exact h
  | deliver i =>
    simp only [step]
    split
    · exact h
    · rename_i k r hi
      have h' : Closed { s with toClient := s.toClient.eraseIdx i } j := h
      exact closed_close h' k (some r)
  | timeout k => exact closed_close h k none
  | loseRequest i | repeatRequest i | loseReply i | repeatReply i | other e => exact h

theorem closed_timeout {k : ℕ} (h : k < s.clients.length) : Closed (s.close k none) k := by
  obtain ⟨c, hc⟩ : ∃ c, s.clients[k]? = some c := ⟨_, List.getElem?_eq_getElem h⟩
  obtain ⟨q, o⟩ := c
  cases o with
  | none =>
    rcases close_cases s k none with ⟨-, hno⟩ | ⟨q', hq', heq⟩
    · exact absurd hc (hno q)
    · rw [heq]
      exact ⟨q', none, List.getElem?_set_self h⟩
  | some o => exact closed_close ⟨q, o, hc⟩ k none

/-- **Every request whose timeout has passed has come to something.** -/
theorem outcome_of_timeout {server : σ} {xs ys : List (Label M Req E)} {k : ℕ}
    (hk : k < (after (step handle move) (start server) xs).clients.length)
    (h : Traced handle Ok (after (step handle move) (start server) (xs ++ .timeout k :: ys))) :
    ∃ o, (k, o) ∈ (after (step handle move) (start server) (xs ++ .timeout k :: ys)).outcomes := by
  have hclosed : Closed (after (step handle move) (start server) (xs ++ .timeout k :: ys)) k := by
    rw [after_append, after_cons]
    have hstep : ∀ (s : State σ M Req Rep) (l : Label M Req E), Closed s k →
        Closed (step handle move s l) k := fun _ l hs => closed_step hs l
    exact invariant_of_step hstep (closed_timeout hk) ys
  obtain ⟨q, o, hq⟩ := hclosed
  exact ⟨o, (h.outcomes k o).mpr ⟨q, hq⟩⟩

end RequestReply
