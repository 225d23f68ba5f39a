import CacheServer.Wire.Framing

/-!
# The bytes of a request

Whenever a connection is kept alive, the request that is finished was executed
once and has taken exactly its own bytes off the stream.
-/

namespace CacheServer
open EntryHeader

/-- One request was executed, and the bytes consumed are its own. -/
def Answered (pending : List Request) (consumed : Nat) : Prop :=
  ∃ r, pending = [r] ∧ (r.Fits → consumed = r.wireSize)

/-- What has been executed and consumed for the request under way, by the state. -/
def CountedAt (c : Connection) (pending : List Request) (consumed : Nat) : Prop :=
  match c.state with
  | .receivingHeader => pending = [] ∧ consumed = c.bufferIndex
  | .receivingArguments => pending = [] ∧ consumed = requestHeaderSize + c.bufferIndex
  | .receivingBody => pending = [] ∧ ∃ t, c.requestType = some t ∧
      consumed = requestHeaderSize + argumentsSize t + c.bufferIndex
  | .awaitingWriteUnblock => pending = [] ∧ consumed = requestHeaderSize + keyValueArgumentsSize
  | .sendingHeader =>
    (∃ t, c.responseType = some t ∧ t.endsConnection = true) ∨ Answered pending consumed
  | .awaitingReadUnblock | .sendingBody => Answered pending consumed
  | .awaitingFinish => True

/-- The same of an outcome that is reached with `pending` and `consumed`. -/
structure Outcome.Counted {σ : Type} (o : Outcome σ) (pending : List Request) (consumed : Nat) :
    Prop where
  receives : o.events.flatMap Event.receivedBytes = []
  counted : match o.result with
    | .newRequest => o.connection.state = .receivingHeader ∧ o.connection.bufferIndex = 0 ∧
        Answered (pending ++ o.events.flatMap Event.requests) consumed
    | .disconnect => True
    | _ => CountedAt o.connection (pending ++ o.events.flatMap Event.requests) consumed

section
variable {σ : Type} {S : Services σ} {c : Connection} {w : World σ} {pending : List Request}
  {consumed : Nat}

theorem sendHeader_counted {t : ResponseType} (events : List Event)
    (hr : events.flatMap Event.receivedBytes = [])
    (h : t.endsConnection = true ∨ Answered (pending ++ events.flatMap Event.requests) consumed) :
    (⟨.success, sendHeader c t, w, events⟩ : Outcome σ).Counted pending consumed :=
  ⟨hr, h.imp_left fun ht => ⟨t, responseType_sendHeader c t, ht⟩⟩

theorem eventReceivedHeader_counted :
    (eventReceivedHeader c w).Counted [] requestHeaderSize := by
  unfold eventReceivedHeader
  split
  · exact sendHeader_counted [] rfl (Or.inl rfl)
  · simp only
    split
    · exact sendHeader_counted _ rfl (Or.inr ⟨_, rfl, fun _ => rfl⟩)
    · exact ⟨rfl, rfl, rfl⟩
    · exact ⟨rfl, rfl, rfl⟩
    · exact ⟨rfl, rfl, rfl⟩
    · exact sendHeader_counted [] rfl (Or.inl rfl)

theorem attemptMemoryWrite_counted {o : Outcome σ} (ht : c.requestType = some .put)
    (h : attemptMemoryWrite S c w = .ok o) :
    o.Counted [] (requestHeaderSize + keyValueArgumentsSize) := by
  unfold attemptMemoryWrite at h
  split at h
  · cases h
  · cases h
    exact sendHeader_counted [] rfl (Or.inl rfl)
  · cases h
    exact ⟨rfl, rfl, rfl⟩
  · cases h
  · cases h
    exact ⟨rfl, rfl, .put, ht, rfl⟩

theorem attemptMemoryRead_counted (events : List Event)
    (hr : events.flatMap Event.receivedBytes = [])
    (h : Answered (pending ++ events.flatMap Event.requests) consumed) :
    ((attemptMemoryRead c w).after events).Counted pending consumed := by
  have hevents := attemptMemoryRead_events c w
  have hstate : CountedAt (attemptMemoryRead c w).connection
      (pending ++ events.flatMap Event.requests) consumed := by
    unfold attemptMemoryRead
    split
    · exact Or.inr h
    · split
      · exact h
      · exact Or.inr h
  refine ⟨by simp [Outcome.after, hevents, hr], ?_⟩
  have hlist : ((attemptMemoryRead c w).after events).events = events := by
    simp [Outcome.after, hevents]
  have hresult : ((attemptMemoryRead c w).after events).result = (attemptMemoryRead c w).result := rfl
  rw [hlist, hresult]
  rcases attemptMemoryRead_result c w with hw | hw <;> rw [hw] <;> exact hstate

theorem eventReceivedArguments_counted {o : Outcome σ} {t : RequestType} (ht : c.requestType = some t)
    (h : eventReceivedArguments S c w = .ok o) :
    o.Counted [] (requestHeaderSize + argumentsSize t) := by
  unfold eventReceivedArguments at h
  rw [ht] at h
  cases t with
  | get =>
    simp only at h
    split at h <;> cases h
    · exact sendHeader_counted [] rfl (Or.inl rfl)
    · exact ⟨rfl, rfl, .get, ht, rfl⟩
  | delete =>
    simp only at h
    split at h <;> cases h
    · exact sendHeader_counted [] rfl (Or.inl rfl)
    · exact ⟨rfl, rfl, .delete, ht, rfl⟩
  | put => exact attemptMemoryWrite_counted ht h
  | ping => cases h

theorem eventReceivedBody_counted {o : Outcome σ} {t : RequestType} (ht : c.requestType = some t)
    (h : eventReceivedBody S c w = .ok o) :
    o.Counted [] (requestHeaderSize + argumentsSize t + bodySize c t) := by
  unfold eventReceivedBody at h
  rw [ht] at h
  cases hp : c.entryHeader with
  | none => cases t <;> simp [hp] at h
  | some p =>
    rw [hp] at h
    cases t with
    | ping => cases h
    | get =>
      simp only at h
      split at h <;> cases h
      refine attemptMemoryRead_counted _ rfl ⟨requestOf .get c w.memory p, rfl, fun _ => ?_⟩
      simp [requestOf, Request.wireSize, argumentsSize, bodySize, Memory.read]
    | delete =>
      simp only at h
      split at h <;> cases h
      refine sendHeader_counted _ rfl (Or.inr ⟨requestOf .delete c w.memory p, rfl, fun _ => ?_⟩)
      simp [requestOf, Request.wireSize, argumentsSize, bodySize, Memory.read]
    | put =>
      simp only at h
      split at h <;> cases h
      · exact sendHeader_counted _ rfl (Or.inl rfl)
      · refine sendHeader_counted _ rfl (Or.inr ⟨requestOf .put c w.memory p, rfl, fun hfits => ?_⟩)
        simp only [requestOf, Request.Fits, Memory.read, ByteArea.read_length, if_pos] at hfits
        simp only [requestOf, Request.wireSize, argumentsSize, bodySize, Memory.read,
          ByteArea.read_length, if_pos]
        rw [Nat.mod_eq_of_lt (by omega), Nat.add_assoc _ c.keySize]

theorem finishRequest_counted (events : List Event) (hr : events.flatMap Event.receivedBytes = [])
    (h : c.flags.keepAlive = true → Answered (pending ++ events.flatMap Event.requests) consumed) :
    ((finishRequest c w).after events).Counted pending consumed := by
  unfold finishRequest
  split
  · rename_i hk
    exact ⟨by simp [Outcome.after, hr], rfl, rfl, by simpa [Outcome.after] using h hk⟩
  · exact ⟨by simp [Outcome.after, hr], trivial⟩

/-- Every completed transfer keeps the account. -/
theorem connectionEvent_counted {o : Outcome σ} (hc : c.Valid) (hdone : c.remainingBytes = 0)
    (ha : CountedAt c pending consumed) (h : connectionEvent S c w = .ok o) :
    o.Counted pending consumed := by
  cases hc.phase with
  | receivingHeader state buffer window entry flags =>
    simp only [CountedAt, state] at ha
    obtain ⟨rfl, rfl⟩ := ha
    simp only [connectionEvent, state] at h
    cases h
    rw [show c.bufferIndex = requestHeaderSize by omega]
    exact eventReceivedHeader_counted
  | receivingArguments state buffer type payload window entry unallocated unlocked =>
    simp only [CountedAt, state] at ha
    obtain ⟨rfl, rfl⟩ := ha
    simp only [connectionEvent, state] at h
    rw [hdone, Nat.add_zero] at window
    rw [window]
    exact eventReceivedArguments_counted type h
  | receivingBody state buffer type payload window entry allocated unlocked =>
    simp only [CountedAt, state] at ha
    obtain ⟨rfl, t, ht, rfl⟩ := ha
    obtain rfl := Option.some.inj (ht.symm.trans type)
    simp only [connectionEvent, state] at h
    rw [hdone, Nat.add_zero] at window
    rw [window]
    exact eventReceivedBody_counted type h
  | awaitingWriteUnblock state | awaitingReadUnblock state =>
    simp only [connectionEvent, state] at h
    cases h
  | @sendingHeader t state buffer type final window unlocked =>
    simp only [CountedAt, state] at ha
    simp only [connectionEvent, state, eventSentHeader_final type final] at h
    cases h
    refine finishRequest_counted [] rfl fun hk => ?_
    rcases ha with ⟨t', ht', hends⟩ | ha
    · obtain rfl := Option.some.inj (ht'.symm.trans type)
      simp [hends] at hk
    · simpa using ha
  | sendingValue state buffer type window entry unallocated locked =>
    simp only [CountedAt, state] at ha
    simp only [connectionEvent, state, eventSentHeader_value type entry] at h
    cases h
    rcases ha with ⟨t', ht', hends⟩ | ha
    · obtain rfl := Option.some.inj (ht'.symm.trans type)
      cases hends
    · exact ⟨rfl, by simpa [CountedAt] using ha⟩
  | sendingBody state type entry unallocated locked =>
    simp only [CountedAt, state] at ha
    simp only [connectionEvent, state, eventSentBody_value type entry] at h
    cases h
    exact finishRequest_counted _ rfl fun _ => by simpa [Event.requests] using ha

theorem received_counted {bytes : List UInt8} (hc : c.Valid) (hr : c.state.receiving = true)
    (ha : CountedAt c pending consumed) :
    CountedAt (advance (storeReceived c w bytes).1 bytes.length) pending (consumed + bytes.length) := by
  cases hc.phase with
  | receivingHeader state buffer window entry flags =>
    simp only [CountedAt, state] at ha
    simp only [storeReceived, buffer, CountedAt, advance, state, ha, and_self]
  | receivingArguments state buffer type payload window entry unallocated unlocked =>
    simp only [CountedAt, state] at ha
    simp only [storeReceived, buffer, CountedAt, advance, state, ha, Nat.add_assoc, and_self]
  | receivingBody state buffer type payload window entry allocated unlocked =>
    simp only [CountedAt, state] at ha
    obtain ⟨rfl, t, ht, rfl⟩ := ha
    simp only [storeReceived, buffer, CountedAt, advance, state]
    exact ⟨trivial, t, ht, by omega⟩
  | awaitingWriteUnblock state | awaitingReadUnblock state | sendingHeader state
  | sendingValue state | sendingBody state =>
    rw [state] at hr
    cases hr

theorem sent_counted {n : Nat} (hs : c.state.sending = true) (ha : CountedAt c pending consumed) :
    CountedAt (advance c n) pending consumed := by
  have hadvance : (advance c n).state = c.state := rfl
  cases hstate : c.state with
  | sendingHeader | sendingBody =>
    simp only [CountedAt, hstate] at ha
    simp only [CountedAt, hadvance, hstate]
    exact ha
  | _ =>
    rw [hstate] at hs
    cases hs

end

/-! ### Sessions -/

namespace Session
variable {σ : Type} {S : Services σ} {interlude : World σ → World σ}

structure Sound (s : Session σ) : Prop where
  live : s.status = .running → s.connection.Valid ∧ CountedAt s.connection s.pending s.consumed
  finished : ∀ f ∈ s.finished, Answered f.1 f.2

theorem start_sound (fileDescriptor : Nat) (header arguments : ByteArea) (w : World σ)
    (input : List UInt8) : (start (connectionInit fileDescriptor header arguments) w input).Sound where
  live _ := ⟨connectionInit_valid .., rfl, rfl⟩
  finished f hf := by cases hf

theorem settle_sound {s : Session σ} {o : Outcome σ} (hf : ∀ f ∈ s.finished, Answered f.1 f.2)
    (hv : o.Valid) (hc : o.Counted s.pending s.consumed) :
    ((s.observe o.events).settle o.result o.connection o.world).Sound := by
  have hconsumed : (s.observe o.events).consumed = s.consumed := by
    simp only [observe, hc.receives, List.length_nil, Nat.add_zero]
  have hcounted := hc.counted
  unfold settle
  cases hr : o.result with
  | newRequest =>
    rw [hr] at hcounted
    obtain ⟨hstate, hindex, hanswered⟩ := hcounted
    refine ⟨fun _ => ⟨hv (by rw [hr]; decide), ?_⟩, fun f hmem => ?_⟩
    · simp only [CountedAt, hstate, hindex, and_self]
    · rcases List.mem_append.mp hmem with hmem | hmem
      · exact hf f hmem
      · rw [List.mem_singleton.mp hmem, hconsumed]
        exact hanswered
  | disconnect => exact ⟨fun hs => (by cases hs), hf⟩
  | success | noTransfer | readBlocked | writeBlocked =>
    rw [hr] at hcounted
    exact ⟨fun _ => ⟨hv (by rw [hr]; decide), by rw [hconsumed]; exact hcounted⟩, hf⟩

theorem proceed_sound {s : Session σ} {c : Connection} {w : World σ}
    (hf : ∀ f ∈ s.finished, Answered f.1 f.2) (hv : c.Valid)
    (hc : CountedAt c s.pending s.consumed) : (s.proceed S c w).Sound := by
  unfold proceed
  by_cases hr : c.remainingBytes ≠ 0
  · simp only [if_pos hr]
    exact ⟨fun _ => ⟨hv, hc⟩, hf⟩
  · simp only [if_neg hr]
    cases he : connectionEvent S c w with
    | error fault => exact ⟨fun hs => (by cases hs), hf⟩
    | ok o =>
      exact settle_sound (s := { s with connection := c, world := w }) hf (connectionEvent_valid hv he)
        (connectionEvent_counted hv (by omega) hc he)

theorem unblock_sound {s : Session σ} {r : Except Fault (Outcome σ)} (h : s.Sound)
    (hr : ∀ o, r = .ok o → o.Valid ∧ o.Counted s.pending s.consumed) :
    (s.after (.error .assertion) r).Sound := by
  cases r with
  | error fault => exact ⟨fun hs => (by cases hs), h.finished⟩
  | ok o =>
    obtain ⟨hv, hc⟩ := hr o rfl
    exact settle_sound h.finished hv hc

theorem unblockRead_sound {s : Session σ} (h : s.Sound) (hs : s.status = .running)
    (hstate : s.connection.state = .awaitingReadUnblock) (w : World σ) :
    (s.after (.error .assertion) (connectionUnblockRead S s.connection w)).Sound := by
  obtain ⟨hv, hc⟩ := h.live hs
  refine unblock_sound h fun o ho => ⟨connectionUnblockRead_valid hv ho, ?_⟩
  simp only [CountedAt, hstate] at hc
  unfold connectionUnblockRead at ho
  rw [if_pos hstate] at ho
  split at ho
  · cases ho
  · split at ho <;> cases ho
    · exact attemptMemoryRead_counted _ rfl (by simpa [Event.requests] using hc)
    · exact attemptMemoryRead_counted [] rfl (by simpa using hc)

theorem unblockWrite_sound {s : Session σ} (h : s.Sound) (hs : s.status = .running)
    (hstate : s.connection.state = .awaitingWriteUnblock) (w : World σ) :
    (s.after (.error .assertion) (connectionUnblockWrite S s.connection w)).Sound := by
  obtain ⟨hv, hc⟩ := h.live hs
  refine unblock_sound h fun o ho => ⟨connectionUnblockWrite_valid hv ho, ?_⟩
  simp only [CountedAt, hstate] at hc
  obtain ⟨hp, hn⟩ := hc
  unfold connectionUnblockWrite at ho
  rw [if_pos hstate] at ho
  rw [hp, hn]
  exact attemptMemoryWrite_counted (hv.awaitingWriteUnblock hstate).1 ho

theorem step_sound {s : Session σ} (h : s.Sound) (n : Nat) : (step S interlude n s).Sound := by
  by_cases hs : s.status = .running
  swap
  · rw [show step S interlude n s = s from if_pos hs]
    exact h
  obtain ⟨hv, hc⟩ := h.live hs
  cases hstate : s.connection.state with
  | awaitingReadUnblock =>
    simp only [step, hs, hstate, ne_eq, not_true_eq_false, if_false, if_true]
    split
    · exact h
    · exact unblockRead_sound h hs hstate _
  | awaitingWriteUnblock =>
    simp only [step, hs, hstate, ne_eq, not_true_eq_false, if_false, if_true, reduceCtorEq]
    split
    · exact h
    · exact unblockWrite_sound h hs hstate _
  | awaitingFinish =>
    cases hv.phase with
    | receivingHeader state | receivingArguments state | receivingBody state
    | awaitingWriteUnblock state | awaitingReadUnblock state | sendingHeader state
    | sendingValue state | sendingBody state =>
      rw [hstate] at state
      cases state
  | receivingHeader | receivingArguments | receivingBody =>
    have hr : s.connection.state.receiving = true := by rw [hstate]; rfl
    rw [step_receiving S interlude hs hr n rfl]
    split
    · exact h
    · refine proceed_sound h.finished (received_valid hv hr ?_) ?_
      · exact List.length_take_le ..
      · have hcount : CountedAt (advance (storeReceived s.connection s.world _).1 _) _
            (s.consumed + ((s.input.take n).take s.connection.remainingBytes).length) :=
          received_counted hv hr hc
        simpa [observe, Event.receivedBytes, Event.requests] using hcount
  | sendingHeader | sendingBody =>
    have hr : s.connection.state.sending = true := by rw [hstate]; rfl
    rw [step_sending S interlude hs hr n rfl]
    split
    · exact h
    · refine proceed_sound h.finished (sent_valid hv hr ?_) ?_
      · rw [List.length_take, pendingBytes_length]
        exact Nat.min_le_right ..
      · simpa [observe, Event.receivedBytes, Event.requests] using sent_counted hr hc

theorem run_sound {s : Session σ} (h : s.Sound) (chunks : List Nat) : (run S interlude chunks s).Sound := by
  induction chunks generalizing s with
  | nil => exact h
  | cons n chunks ih => exact ih (step_sound h n)

end Session

/-- Two ways of splitting the transfers of one connection: what one has executed and sent is a
prefix of the other's; if both have come to rest they agree in everything; and every request
after which the connection was kept alive has taken its own bytes off the stream. -/
theorem framing_independent {σ : Type} (S : Services σ) (interlude : World σ → World σ)
    (fileDescriptor : Nat) (header arguments : ByteArea) (w : World σ) (input : List UInt8)
    (chunks₁ chunks₂ : List Nat) :
    let s := Session.start (connectionInit fileDescriptor header arguments) w input
    let a := s.run S interlude chunks₁
    let b := s.run S interlude chunks₂
    (a.executed <+: b.executed ∧ a.sent <+: b.sent ∨ b.executed <+: a.executed ∧ b.sent <+: a.sent) ∧
      (a.Settled S interlude → b.Settled S interlude → a = b) ∧
        ∀ f ∈ a.finished, ∃ r, f.1 = [r] ∧ (r.Fits → f.2 = r.wireSize) := by
  intro s a b
  have hcomparable := Session.run_comparable S interlude chunks₁ chunks₂ s
  have hsound : (s.run S interlude chunks₁).Sound :=
    Session.run_sound (Session.start_sound fileDescriptor header arguments w input) chunks₁
  refine ⟨?_, fun ha hb => ?_, hsound.finished⟩
  · rcases hcomparable with ⟨k, hk⟩ | ⟨k, hk⟩
    · refine Or.inl ?_
      show a.executed <+: (s.run S interlude chunks₂).executed ∧ _ <+: (s.run S interlude chunks₂).sent
      rw [hk]
      exact Session.iterate_prefix S interlude k a
    · refine Or.inr ?_
      show b.executed <+: (s.run S interlude chunks₁).executed ∧ _ <+: (s.run S interlude chunks₁).sent
      rw [hk]
      exact Session.iterate_prefix S interlude k b
  · rcases hcomparable with ⟨k, hk⟩ | ⟨k, hk⟩
    · exact (hk.trans (ha.iterate S interlude k)).symm
    · exact hk.trans (hb.iterate S interlude k)

end CacheServer
