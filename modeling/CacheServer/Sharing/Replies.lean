import CacheServer.Sharing.Exclusive
import CacheServer.Sharing.KeyHeap
import CacheServer.Sharing.Serving

/-!
# Acknowledgements

What a connection sends after it has executed a request tells what was done: OK
to a PUT that went into the index and to a DELETE, OUT_OF_MEMORY to a PUT that
did not. `Reply` follows the history from the request on.
-/

namespace CacheServer

/-- A request and what its connection has done since: put its value into the index, asked the
index, and sent. -/
structure Reply where
  request : Request
  stored : Bool
  lookedUp : Bool
  sent : List UInt8
  deriving DecidableEq

namespace Reply

def next (r : Reply) : Event → Reply
  | .stored key value _ =>
    { r with stored := r.stored || decide (key = r.request.key ∧ value = r.request.value) }
  | .lookedUp _ _ => { r with lookedUp := true }
  | .sent bytes => { r with sent := r.sent ++ bytes }
  | _ => r

@[simp] theorem next_request (r : Reply) (event : Event) : (r.next event).request = r.request := by
  cases event <;> rfl

/-- The answer to anything but a GET. -/
def response (r : Reply) : List UInt8 :=
  match r.request.type with
  | .ping => [ResponseType.pong.toByte]
  | .delete => [ResponseType.ok.toByte]
  | .put => if r.stored then [ResponseType.ok.toByte] else [ResponseType.outOfMemory.toByte]
  | .get => []

end Reply

def nextReply (y : Option Reply) : Event → Option Reply
  | .executed request => some ⟨request, false, false, []⟩
  | .received _ => none
  | event => y.map fun r => r.next event

/-- The event says something about a request, or begins the next one. -/
def Event.inReply : Event → Bool
  | .allocated _ | .malloced _ | .freed _ | .released .. => false
  | _ => true

/-- The request that the connection has executed last, unless it has received anything since. -/
def reply (history : List (Nat × Event)) (i : Nat) : Option Reply :=
  history.foldl (fun y x => if x.1 = i then nextReply y x.2 else y) none

inductive Replies (c : Connection) : Option Reply → Prop
  | idle : Replies c none
  | reading {r : Reply} (type : r.request.type = .get) (lookedUp : r.lookedUp = true) :
      Replies c (some r)
  | sends {r : Reply} (type : r.request.type ≠ .get) (state : c.state = .sendingHeader)
      (other : c.responseType ≠ some .value) (buffer : c.buffer = .header)
      (sent : r.sent ++ c.header.read c.bufferIndex c.remainingBytes = r.response) :
      Replies c (some r)
  | replied {r : Reply} (type : r.request.type ≠ .get) (state : c.state = .receivingHeader)
      (sent : r.sent = r.response) : Replies c (some r)

section
variable {history : List (Nat × Event)} {i j : Nat} {c : Connection} {w : World System}
  {o : Outcome System} {socket : Socket} {r : Reply} {y : Option Reply} {events : List Event}

theorem reply_extend (history : List (Nat × Event)) (i : Nat) (events : List Event) :
    reply (extend history i events) i = events.foldl nextReply (reply history i) := by
  simp [reply, extend, List.foldl_map]

theorem reply_other (hji : j ≠ i) (events : List Event) :
    reply (extend history i events) j = reply history j := by
  induction events generalizing history with
  | nil => rw [extend_nil]
  | cons event events ih =>
    rw [← List.singleton_append, extend_append, ih]
    simp [reply, extend, hji.symm]

theorem nextReply_quiet {event : Event} (h : event.inReply = false) : nextReply y event = y := by
  cases event with
  | received | sent | executed | lookedUp | stored => cases h
  | allocated | malloced | freed | released => cases y <;> rfl

theorem reply_quiet (h : ∀ event ∈ events, event.inReply = false) :
    reply (extend history i events) i = reply history i := by
  rw [reply_extend]
  induction events generalizing history with
  | nil => rfl
  | cons event events ih =>
    rw [List.foldl_cons, nextReply_quiet (h event (List.mem_cons_self ..))]
    exact ih fun x hx => h x (List.mem_cons_of_mem _ hx)

/-- Only the state and the window matter. -/
theorem Replies.congr {c' : Connection} (h : Replies c y) (state : c'.state = c.state)
    (header : c'.header = c.header) (buffer : c'.buffer = c.buffer)
    (index : c'.bufferIndex = c.bufferIndex) (remaining : c'.remainingBytes = c.remainingBytes) :
    Replies c' y := by
  cases h with
  | idle => exact .idle
  | reading type lookedUp => exact .reading type lookedUp
  | replied type hs sent => exact .replied type (state.trans hs) sent
  | sends type hs other hb sent =>
    refine .sends type (state.trans hs) ?_ (buffer.trans hb) ?_
    · rwa [Connection.responseType, header]
    · rwa [header, index, remaining]

theorem Replies.prefix (h : Replies c (some r)) (type : r.request.type ≠ .get) :
    r.sent <+: r.response := by
  cases h with
  | reading ht => exact absurd ht type
  | sends _ _ _ _ sent => exact ⟨_, sent⟩
  | replied _ _ sent => exact ⟨[], by rw [List.append_nil, sent]⟩

theorem Replies.complete (h : Replies c (some r)) (type : r.request.type ≠ .get)
    (hs : c.state.receiving = true) : r.sent = r.response := by
  cases h with
  | reading ht => exact absurd ht type
  | sends _ state =>
    rw [state] at hs
    cases hs
  | replied _ _ sent => exact sent

theorem Replies.lookedUp (h : Replies c (some r)) (type : r.request.type = .get) :
    r.lookedUp = true := by
  cases h with
  | reading _ lookedUp => exact lookedUp
  | sends ht | replied ht => exact absurd type ht

/-! ### Transfers -/

theorem socketFailure_replies (hc : c.Valid) (h : Replies c (reply history i))
    (hf : socketFailure serverServices c w = .ok o) :
    Replies o.connection (reply (extend history i o.events) i) := by
  have hquiet : ∀ event ∈ o.events, event.inReply = false := by
    intro event hevent
    rcases socketFailure_events hc hf with he | ⟨p, e, he⟩
    · rw [he] at hevent
      cases hevent
    · rw [he, List.mem_singleton] at hevent
      rw [hevent]
      rfl
  rw [reply_quiet hquiet]
  unfold socketFailure at hf
  split at hf
  · cases hf
  · simp only at hf
    split at hf
    · split at hf <;> cases hf
      exact h.congr rfl rfl rfl rfl rfl
    · cases hf
      exact h

theorem connectionTransfer_replies (hc : c.Valid) (h : Replies c (reply history i))
    (ht : connectionTransfer serverServices socket c w = .ok o) :
    Replies o.connection (reply (extend history i o.events) i) ∧
      (c.state.receiving = true → o.result = .success → reply (extend history i o.events) i = none) := by
  have hreturns := connectionTransfer_returns ht
  cases hreturns with
  | idle =>
    rw [extend_nil]
    exact ⟨h, fun _ hsuccess => by cases hsuccess⟩
  | failed _ failure closed =>
    refine ⟨socketFailure_replies hc h failure, fun _ hsuccess => ?_⟩
    cases closed.symm.trans hsuccess
  | received bytes state =>
    have hnone : reply (extend history i [.received bytes]) i = none := reply_extend ..
    refine ⟨?_, fun _ _ => hnone⟩
    rw [hnone]
    exact .idle
  | sent bytes state some le front =>
    refine ⟨?_, fun hreceiving => ?_⟩
    · have hsent : reply (extend history i [.sent bytes]) i =
          (reply history i).map fun r => { r with sent := r.sent ++ bytes } := reply_extend ..
      rw [hsent]
      generalize reply history i = y at h
      cases h with
      | idle => exact .idle
      | reading type lookedUp => exact .reading type lookedUp
      | replied type hs =>
        rw [hs] at state
        cases state
      | sends type hs other buffer sent =>
        rw [header_read (pendingBytes_sent front) buffer, ← List.append_assoc] at sent
        exact .sends type hs other buffer sent
    · cases hs : c.state <;> simp [ConnectionState.receiving, ConnectionState.sending, hs] at hreceiving state

/-! ### Events -/

theorem sendHeader_replies (c : Connection) {t : ResponseType} (ht : t ≠ .value)
    (type : r.request.type ≠ .get) (sent : r.sent = []) (response : r.response = [t.toByte]) :
    Replies (sendHeader c t) (some r) := by
  refine .sends type rfl ?_ rfl ?_
  · rw [responseType_sendHeader]
    exact fun h => ht (Option.some.inj h)
  · rw [sent, response, List.nil_append]
    exact ByteArea.read_write_same c.header 0 [t.toByte]

theorem eventReceivedHeader_replies (hnone : reply history i = none) :
    Replies (eventReceivedHeader c w).connection
      (reply (extend history i (eventReceivedHeader c w).events) i) := by
  unfold eventReceivedHeader
  split
  · rw [extend_nil, hnone]
    exact .idle
  · simp only
    split
    · rw [reply_extend]
      exact sendHeader_replies _ (by decide) (by simp) rfl rfl
    all_goals
      rw [extend_nil, hnone]
      exact .idle

theorem attemptMemoryWrite_quiet (h : attemptMemoryWrite serverServices c w = .ok o) :
    ∀ event ∈ o.events, event.inReply = false := by
  unfold attemptMemoryWrite at h
  split at h
  · cases h
  · cases h
    exact fun event hevent => by cases hevent
  · cases h
    exact fun event hevent => by cases hevent
  · cases h
  · cases h
    intro event hevent
    rw [List.mem_singleton.mp hevent]
    rfl

theorem eventReceivedArguments_quiet (h : eventReceivedArguments serverServices c w = .ok o) :
    ∀ event ∈ o.events, event.inReply = false := by
  unfold eventReceivedArguments at h
  split at h
  case h_3 => exact attemptMemoryWrite_quiet h
  case h_4 => cases h
  all_goals
    split at h
    · cases h
      exact fun event hevent => by cases hevent
    · cases h
      intro event hevent
      rw [List.mem_singleton.mp hevent]
      rfl

theorem eventReceivedBody_replies (h : eventReceivedBody serverServices c w = .ok o) :
    Replies o.connection (reply (extend history i o.events) i) := by
  unfold eventReceivedBody at h
  split at h
  · simp only at h
    split at h
    · cases h
    · cases h
      rw [reply_extend]
      simp only [Outcome.after, attemptMemoryRead_events, List.append_nil]
      exact .reading rfl rfl
  · simp only at h
    split at h
    · cases h
    · cases h
      rw [reply_extend]
      exact sendHeader_replies _ (by decide) (by simp [requestOf]) rfl rfl
  · simp only at h
    split at h
    · cases h
      rw [reply_extend]
      exact sendHeader_replies _ (by decide) (by simp [requestOf]) rfl rfl
    · cases h
      rw [reply_extend]
      refine sendHeader_replies _ (by decide) (by simp [requestOf]) rfl ?_
      simp [Reply.response, Reply.next, requestOf]
  · cases h
  · cases h
  · cases h

theorem finishRequest_replies (hs : c.state.sending = true) (hzero : c.remainingBytes = 0)
    (h : Replies c y) : Replies (finishRequest c w).connection y := by
  unfold finishRequest
  split
  · cases h with
    | idle => exact .idle
    | reading type lookedUp => exact .reading type lookedUp
    | replied type state =>
      rw [state] at hs
      cases hs
    | sends type state other buffer sent =>
      rw [hzero] at sent
      exact .replied type rfl ((List.append_nil _).symm.trans sent)
  · exact h

/- In the other states there is a GET to answer, if anything. -/
theorem Replies.reads (h : Replies c y) (header : c.state ≠ .receivingHeader)
    (other : c.state ≠ .sendingHeader ∨ c.responseType = some .value) :
    y = none ∨ ∃ r, y = some r ∧ r.request.type = .get ∧ r.lookedUp = true := by
  cases h with
  | idle => exact Or.inl rfl
  | reading type lookedUp => exact Or.inr ⟨_, rfl, type, lookedUp⟩
  | replied type state => exact absurd state header
  | sends type state hother =>
    rcases other with hs | ht
    · exact absurd state hs
    · exact absurd ht hother

theorem Replies.elsewhere {c' : Connection} (h : Replies c y) (header : c.state ≠ .receivingHeader)
    (other : c.state ≠ .sendingHeader ∨ c.responseType = some .value) : Replies c' y := by
  rcases h.reads header other with rfl | ⟨r, rfl, type, lookedUp⟩
  · exact .idle
  · exact .reading type lookedUp

theorem connectionEvent_replies (hc : c.Valid) (hzero : c.remainingBytes = 0)
    (h : Replies c (reply history i)) (hnone : c.state.receiving = true → reply history i = none)
    (he : connectionEvent serverServices c w = .ok o) :
    Replies o.connection (reply (extend history i o.events) i) := by
  cases hc.phase with
  | receivingHeader state =>
    simp only [connectionEvent, state] at he
    cases he
    exact eventReceivedHeader_replies (hnone (by rw [state]; rfl))
  | receivingArguments state =>
    simp only [connectionEvent, state] at he
    rw [reply_quiet (eventReceivedArguments_quiet he), hnone (by rw [state]; rfl)]
    exact .idle
  | receivingBody state =>
    simp only [connectionEvent, state] at he
    exact eventReceivedBody_replies he
  | awaitingWriteUnblock state | awaitingReadUnblock state =>
    simp only [connectionEvent, state] at he
    cases he
  | @sendingHeader t state buffer type final =>
    simp only [connectionEvent, state] at he
    rw [eventSentHeader_final type final] at he
    cases he
    rw [finishRequest_events, extend_nil]
    refine finishRequest_replies ?_ ?_ ?_
    · split <;> exact state ▸ rfl
    · split <;> exact hzero
    · split
      · exact h.congr rfl rfl rfl rfl rfl
      · exact h
  | sendingValue state buffer type window entry =>
    simp only [connectionEvent, state] at he
    rw [eventSentHeader_value type entry] at he
    cases he
    rw [extend_nil]
    exact h.elsewhere (by simp [state]) (Or.inr type)
  | sendingBody state type entry =>
    simp only [connectionEvent, state] at he
    rw [eventSentBody_value type entry] at he
    cases he
    rw [reply_quiet]
    · exact h.elsewhere (by simp [state]) (Or.inl (by simp [state]))
    · intro event hevent
      simp only [Outcome.after, finishRequest_events, List.append_nil, List.mem_singleton] at hevent
      rw [hevent]
      rfl

/-! ### Calls -/

theorem ConnectionCall.replies {call : ConnectionCall} (hc : c.Valid) (h : Replies c (reply history i))
    (hrun : call.run c w = .ok o) : Replies o.connection (reply (extend history i o.events) i) := by
  have hreturns := call.returns hrun
  cases hreturns with
  | transferred socket transfer => exact (connectionTransfer_replies hc h transfer).1
  | @completed o₁ o₂ socket transfer success complete event =>
    have hopen : o₁.result ≠ .disconnect := by rw [success]; decide
    obtain ⟨hsent, hnone⟩ := connectionTransfer_replies hc h transfer
    have hstate := (connectionTransfer_kept transfer hopen).1
    have hevent := connectionEvent_replies (connectionTransfer_valid hc transfer hopen) complete hsent
      (fun hs => hnone (by rwa [← hstate]) success) event
    simp only [Outcome.after]
    rw [extend_append]
    exact hevent
  | retriedRead retry =>
    have hs : c.state = .awaitingReadUnblock := by
      by_contra hs
      simp [connectionUnblockRead, hs] at retry
    simp only [connectionUnblockRead, if_pos hs] at retry
    split at retry
    · cases retry
    · split at retry
      · cases retry
        simp only [Outcome.after, attemptMemoryRead_events, List.append_nil]
        rw [reply_extend]
        rcases h.reads (by simp [hs]) (Or.inl (by simp [hs])) with hy | ⟨r, hy, type, -⟩
        · rw [hy]
          exact .idle
        · rw [hy]
          exact .reading type rfl
      · cases retry
        rw [attemptMemoryRead_events, extend_nil]
        exact h.elsewhere (by simp [hs]) (Or.inl (by simp [hs]))
  | retriedWrite retry =>
    have hs : c.state = .awaitingWriteUnblock := by
      by_contra hs
      simp [connectionUnblockWrite, hs] at retry
    simp only [connectionUnblockWrite, if_pos hs] at retry
    rw [reply_quiet (attemptMemoryWrite_quiet retry)]
    exact h.elsewhere (by simp [hs]) (Or.inl (by simp [hs]))

end

/-! ### Connections in any order -/

namespace Connections

/-- What each connection has sent, also one that is closed, follows from what it has done. -/
structure Replied (s : Connections) : Prop where
  fresh : ∀ i, s.accepted ≤ i → s.get i = none ∧ reply s.history i = none
  valid : ∀ i c, s.get i = some c → c.Valid
  replies : ∀ i, ∃ c, Replies c (reply s.history i) ∧ ∀ c', s.get i = some c' → c' = c

section
variable {s s' : Connections} {i : Nat} {c : Connection} {o : Outcome System} {call : ConnectionCall}

theorem Replied.opened (hash : List UInt8 → Nat) (capacityBytes : Nat) (memory : Memory) :
    (connectionsOpen hash capacityBytes memory).Replied where
  fresh _ _ := ⟨rfl, rfl⟩
  valid i c hc := by cases hc
  replies i := ⟨connectionInit 0 (fun _ => 0) (fun _ => 0), .idle, fun c hc => by cases hc⟩

theorem Replied.called (h : s.Replied) (hc : s.get i = some c) (hrun : call.run c s.world = .ok o) :
    (s.after i o).Replied := by
  have hhistory : (s.after i o).history = extend s.history i o.events := rfl
  have hi : i < s.accepted := by
    by_contra hle
    cases (h.fresh i (by omega)).1.symm.trans hc
  have hcalled : Replies o.connection (reply (s.after i o).history i) := by
    obtain ⟨c', hreplies, hself⟩ := h.replies i
    cases hself c hc
    exact call.replies (h.valid i c hc) hreplies hrun
  refine ⟨fun j hj => ?_, fun j c' hc' => ?_, fun j => ?_⟩
  · have hj : s.accepted ≤ j := hj
    rw [after_get (by omega), hhistory, reply_other (by omega)]
    exact h.fresh j hj
  · by_cases hji : j = i
    · subst hji
      obtain ⟨hopen, rfl⟩ := after_get_self hc'
      exact call.run_valid (h.valid j c hc) hrun hopen
    · rw [after_get hji] at hc'
      exact h.valid j c' hc'
  · by_cases hji : j = i
    · subst hji
      exact ⟨o.connection, hcalled, fun c' hc' => (after_get_self hc').2⟩
    · rw [after_get hji, hhistory, reply_other hji]
      exact h.replies j

theorem Replied.accept (h : s.Replied) (hc : c.Valid) : (s.accept c).Replied := by
  refine ⟨fun j hj => ?_, fun j c' hc' => ?_, fun j => ?_⟩
  · have hj : s.accepted + 1 ≤ j := hj
    rw [accept_get (by omega)]
    exact h.fresh j (by omega)
  · by_cases hj : j = s.accepted
    · subst hj
      cases (if_pos rfl).symm.trans hc'
      exact hc
    · rw [accept_get hj] at hc'
      exact h.valid j c' hc'
  · by_cases hj : j = s.accepted
    · subst hj
      refine ⟨c, ?_, fun c' hc' => ?_⟩
      · show Replies c (reply s.history s.accepted)
        rw [(h.fresh s.accepted le_rfl).2]
        exact .idle
      · exact (Option.some.inj ((if_pos rfl).symm.trans hc')).symm
    · rw [accept_get hj]
      exact h.replies j

theorem Replied.step {a : Action} (h : s.Replied) (hstep : s.step a = .ok s') : s'.Replied := by
  cases a with
  | accept fileDescriptor header arguments =>
    cases hstep
    exact h.accept (connectionInit_valid fileDescriptor header arguments)
  | answer answers =>
    cases hstep
    exact ⟨h.fresh, h.valid, h.replies⟩
  | call i call =>
    obtain ⟨c, o, hc, hrun, rfl⟩ := step_call hstep
    exact h.called hc hrun

end

end Connections

/-! ### What the history says -/

/-- The connection neither receives anything nor executes another request. -/
def Still (i : Nat) (rest : List (Nat × Event)) : Prop :=
  ∀ x ∈ rest, x.1 = i → ∀ request bytes, x.2 ≠ .executed request ∧ x.2 ≠ .received bytes

def sentBy (i : Nat) : List (Nat × Event) → List UInt8
  | [] => []
  | (j, .sent bytes) :: rest => if j = i then bytes ++ sentBy i rest else sentBy i rest
  | _ :: rest => sentBy i rest

/-- The answer to a request that is no GET, by what the connection has done since. -/
inductive Acknowledges (i : Nat) (rest : List (Nat × Event)) (request : Request) : List UInt8 → Prop
  | pong (type : request.type = .ping) : Acknowledges i rest request [ResponseType.pong.toByte]
  | deleted (type : request.type = .delete) : Acknowledges i rest request [ResponseType.ok.toByte]
  | stored {p : Pointer} (type : request.type = .put)
      (stored : (i, .stored request.key request.value p) ∈ rest) :
      Acknowledges i rest request [ResponseType.ok.toByte]
  | refused (type : request.type = .put)
      (refused : ∀ p, (i, .stored request.key request.value p) ∉ rest) :
      Acknowledges i rest request [ResponseType.outOfMemory.toByte]

section
variable {i : Nat} {before rest : List (Nat × Event)} {request : Request} {r : Reply}

theorem Still.tail {x : Nat × Event} (h : Still i (x :: rest)) : Still i rest :=
  fun z hz => h z (List.mem_cons_of_mem _ hz)

theorem sentBy_other {x : Nat × Event} (h : x.1 = i → ∀ bytes, x.2 ≠ .sent bytes) :
    sentBy i (x :: rest) = sentBy i rest := by
  obtain ⟨j, event⟩ := x
  cases event with
  | sent bytes => exact if_neg fun hji => h hji bytes rfl
  | received | executed | lookedUp | allocated | stored | malloced | freed | released => rfl

theorem Reply.next_stored (r : Reply) (event : Event) : (r.next event).stored = true ↔
    r.stored = true ∨ ∃ p, event = .stored r.request.key r.request.value p := by
  cases event <;> simp [Reply.next]

theorem Reply.next_lookedUp (r : Reply) (event : Event) : (r.next event).lookedUp = true ↔
    r.lookedUp = true ∨ ∃ k p, event = .lookedUp k p := by
  cases event <;> simp [Reply.next]

theorem Reply.next_sent (r : Reply) (i : Nat) (event : Event) (rest : List (Nat × Event)) :
    (r.next event).sent ++ sentBy i rest = r.sent ++ sentBy i ((i, event) :: rest) := by
  cases event <;> simp [Reply.next, sentBy]

/-- The reply follows from what the connection has done since the request. -/
theorem foldl_still (r : Reply) (h : Still i rest) : ∃ r',
    rest.foldl (fun y x => if x.1 = i then nextReply y x.2 else y) (some r) = some r' ∧
      r'.request = r.request ∧ r'.sent = r.sent ++ sentBy i rest ∧
      (r'.stored = true ↔ r.stored = true ∨
        ∃ p, (i, .stored r.request.key r.request.value p) ∈ rest) ∧
      (r'.lookedUp = true ↔ r.lookedUp = true ∨ ∃ k p, (i, .lookedUp k p) ∈ rest) := by
  induction rest generalizing r with
  | nil => exact ⟨r, rfl, rfl, (List.append_nil _).symm, by simp, by simp⟩
  | cons x rest ih =>
    obtain ⟨j, event⟩ := x
    by_cases hji : j = i
    · subst hji
      have hstep : nextReply (some r) event = some (r.next event) := by
        have hx := h (j, event) (List.mem_cons_self ..) rfl
        cases event with
        | executed request => exact absurd rfl (hx request []).1
        | received bytes => exact absurd rfl (hx r.request bytes).2
        | sent | lookedUp | allocated | stored | malloced | freed | released => rfl
      obtain ⟨r', hfold, hrequest, hsent, hstored, hlooked⟩ := ih (r.next event) h.tail
      rw [Reply.next_request] at hrequest hstored
      refine ⟨r', ?_, hrequest, ?_, ?_, ?_⟩
      · rw [List.foldl_cons, if_pos rfl, hstep]
        exact hfold
      · rw [hsent, Reply.next_sent]
      · rw [hstored, Reply.next_stored, or_assoc]
        simp only [List.mem_cons, Prod.mk.injEq, true_and, exists_or, @eq_comm _ event]
      · rw [hlooked, Reply.next_lookedUp, or_assoc]
        simp only [List.mem_cons, Prod.mk.injEq, true_and, exists_or, @eq_comm _ event]
    · obtain ⟨r', hfold, hrequest, hsent, hstored, hlooked⟩ := ih r h.tail
      refine ⟨r', ?_, hrequest, ?_, ?_, ?_⟩
      · rw [List.foldl_cons, if_neg hji]
        exact hfold
      · rw [hsent, sentBy_other fun hj => absurd hj hji]
      · rw [hstored]
        simp [Ne.symm hji]
      · rw [hlooked]
        simp [Ne.symm hji]

theorem reply_still {history : List (Nat × Event)}
    (hhistory : history = before ++ (i, .executed request) :: rest) (hstill : Still i rest) :
    ∃ r, reply history i = some r ∧ r.request = request ∧ r.sent = sentBy i rest ∧
      (r.stored = true ↔ ∃ p, (i, .stored request.key request.value p) ∈ rest) ∧
      (r.lookedUp = true ↔ ∃ k p, (i, .lookedUp k p) ∈ rest) := by
  obtain ⟨r, hfold, hrequest, hsent, hstored, hlooked⟩ :=
    foldl_still ⟨request, false, false, []⟩ hstill
  refine ⟨r, ?_, hrequest, hsent, ?_, ?_⟩
  · rw [reply, hhistory, List.foldl_append, List.foldl_cons, if_pos rfl]
    exact hfold
  · rw [hstored]
    exact or_iff_right Bool.false_ne_true
  · rw [hlooked]
    exact or_iff_right Bool.false_ne_true

theorem Reply.acknowledges (htype : r.request.type ≠ .get)
    (hstored : r.stored = true ↔ ∃ p, (i, .stored r.request.key r.request.value p) ∈ rest) :
    Acknowledges i rest r.request r.response := by
  unfold Reply.response
  split
  · rename_i type
    exact .pong type
  · rename_i type
    exact .deleted type
  · rename_i type
    split
    · rename_i hs
      obtain ⟨p, hp⟩ := hstored.mp hs
      exact .stored type hp
    · rename_i hs
      exact .refused type fun p hp => hs (hstored.mpr ⟨p, hp⟩)
  · rename_i type
    exact absurd type htype

end

section
variable {hash : List UInt8 → Nat} {capacityBytes : Nat} {memory : Memory} {s : Connections}
  {as : List Action} {i : Nat} {before rest : List (Nat × Event)} {request : Request}

theorem GuardedRun.replied {guard : Connections → Action → Prop}
    (run : GuardedRun guard hash capacityBytes memory s) : s.Replied :=
  run.keeps (.opened hash capacityBytes memory) fun _ _ _ h hstep => h.step hstep

theorem Connections.replied_of_perform
    (hrun : Connections.perform as (connectionsOpen hash capacityBytes memory) = .ok s) : s.Replied :=
  Connections.perform_keeps (fun _ _ _ h hstep => h.step hstep) (.opened hash capacityBytes memory) hrun

/-- After any calls of any connections: OK is sent to a PUT only if its value has been put into the
index since, and OUT_OF_MEMORY only if not. -/
theorem requests_acknowledged
    (hrun : Connections.perform as (connectionsOpen hash capacityBytes memory) = .ok s)
    (hhistory : s.history = before ++ (i, .executed request) :: rest) (hstill : Still i rest)
    (htype : request.type ≠ .get) : ∃ answer, Acknowledges i rest request answer ∧
      sentBy i rest <+: answer ∧
      ∀ c, s.get i = some c → c.state.receiving = true → sentBy i rest = answer := by
  obtain ⟨c, hreplies, hself⟩ := (Connections.replied_of_perform hrun).replies i
  obtain ⟨r, hreply, rfl, hsent, hstored, -⟩ := reply_still hhistory hstill
  rw [hreply] at hreplies
  refine ⟨r.response, r.acknowledges htype hstored, ?_, fun c' hc' hs => ?_⟩
  · rw [← hsent]
    exact hreplies.prefix htype
  · cases hself c' hc'
    rw [← hsent]
    exact hreplies.complete htype hs

end

/-- `PUT a = b`, and OK in answer. -/
def putsOne : List Action :=
  [.accept 5 (fun _ => 0) fun _ => 0, receiving 0 [1, 0, 1, 2], receiving 0 [1, 0, 1, 0, 0, 0],
    receiving 0 [97, 98], sending 0 1]

theorem requests_acknowledged_put : ∃ s before rest,
    Connections.perform putsOne smallConnections = .ok s ∧
      s.history = before ++ (0, .executed ⟨.put, [97], [98]⟩) :: rest ∧
      Acknowledges 0 rest ⟨.put, [97], [98]⟩ [ResponseType.ok.toByte] := by
  have hrun : (Connections.perform putsOne smallConnections).Gives fun s =>
      s.history.drop 4 = [(0, .executed ⟨.put, [97], [98]⟩), (0, .stored [97] [98] (ringPointer 0)),
        (0, .sent [1])] ∧ ∃ c ∈ s.get 0, c.state.receiving = true := by
    decide +kernel
  obtain ⟨s, hs, hdrop, c, hc, hreceiving⟩ := hrun
  have hhistory : s.history = s.history.take 4 ++ (0, .executed ⟨.put, [97], [98]⟩) ::
      [(0, .stored [97] [98] (ringPointer 0)), (0, .sent [1])] := by
    rw [← hdrop, List.take_append_drop]
  have hstill : Still 0 [(0, .stored [97] [98] (ringPointer 0)), (0, .sent [1])] := by
    intro x hx _ request bytes
    simp only [List.mem_cons, List.not_mem_nil, or_false] at hx
    rcases hx with rfl | rfl <;> simp
  obtain ⟨answer, hanswer, -, hcomplete⟩ := requests_acknowledged hs hhistory hstill (by decide)
  refine ⟨s, _, _, hs, hhistory, ?_⟩
  rw [show [ResponseType.ok.toByte] = answer from hcomplete c hc hreceiving]
  exact hanswer

end CacheServer
