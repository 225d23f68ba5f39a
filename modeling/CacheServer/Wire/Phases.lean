import CacheServer.Model.Connection

/-!
# The phases of a connection

`Connection.Phase` says, state by state, what holds of a connection between two
calls of connection.c, whatever the services answer.
-/

namespace CacheServer
open EntryHeader

namespace ResponseType

theorem ofByte_toByte (t : ResponseType) : ofByte t.toByte = some t := by
  cases t <;> decide

end ResponseType

/-- The responses after which the connection is not kept alive. -/
def ResponseType.endsConnection : ResponseType → Bool
  | .keyOversized | .outOfMemory | .unknownRequest | .unsupportedVersion | .valueOversized => true
  | .ok | .value | .pong | .notFound => false

/-! ### Transfers -/

def ConnectionState.receiving : ConnectionState → Bool
  | .receivingHeader | .receivingArguments | .receivingBody => true
  | _ => false

def ConnectionState.sending : ConnectionState → Bool
  | .sendingHeader | .sendingBody => true
  | _ => false

section
variable {σ : Type} (S : Services σ) (socket : Socket) (c : Connection) (w : World σ)

theorem pendingBytes_length : (pendingBytes c w).length = c.remainingBytes := by
  unfold pendingBytes
  split <;> simp [Memory.read]

theorem storeReceived_state (bytes : List UInt8) :
    (storeReceived c w bytes).1.state = c.state := by
  unfold storeReceived
  split <;> rfl

theorem storeReceived_remainingBytes (bytes : List UInt8) :
    (storeReceived c w bytes).1.remainingBytes = c.remainingBytes := by
  unfold storeReceived
  split <;> rfl

theorem storeReceived_entryHeader (bytes : List UInt8) :
    (storeReceived c w bytes).1.entryHeader = c.entryHeader := by
  unfold storeReceived
  split <;> rfl

/-- The ways in which `connection_transfer` ends. -/
inductive Transfer : Except Fault (Outcome σ) → Prop
  | unsupported (state : c.state.receiving = false ∧ c.state.sending = false) :
      Transfer (.error .assertion)
  | idle : Transfer (.ok ⟨.noTransfer, c, w, []⟩)
  | failed (failed : socket.failed = true) : Transfer (socketFailure S c w)
  | received (bytes : List UInt8) (state : c.state.receiving = true) (some : bytes ≠ [])
      (le : bytes.length ≤ c.remainingBytes) (front : bytes = socket.incoming.take c.remainingBytes)
      (works : socket.failed = false) :
      Transfer (.ok ⟨.success, advance (storeReceived c w bytes).1 bytes.length,
        (storeReceived c w bytes).2, [.received bytes]⟩)
  | sent (bytes : List UInt8) (state : c.state.sending = true) (some : bytes ≠ [])
      (le : bytes.length ≤ c.remainingBytes) (front : bytes = (pendingBytes c w).take socket.room)
      (works : socket.failed = false) :
      Transfer (.ok ⟨.success, advance c bytes.length, w, [.sent bytes]⟩)

theorem connectionTransfer_receiving (hstate : c.state.receiving = true) :
    connectionTransfer S socket c w =
      match socket.recv c.remainingBytes with
      | .failure => socketFailure S c w
      | .wouldBlock | .transferred [] => .ok ⟨.noTransfer, c, w, []⟩
      | .transferred bytes =>
        .ok ⟨.success, advance (storeReceived c w bytes).1 bytes.length,
          (storeReceived c w bytes).2, [.received bytes]⟩ := by
  unfold connectionTransfer
  cases hs : c.state with
  | receivingHeader | receivingArguments | receivingBody => rfl
  | _ => simp [ConnectionState.receiving, hs] at hstate

theorem connectionTransfer_sending (hstate : c.state.sending = true) :
    connectionTransfer S socket c w =
      match socket.send (pendingBytes c w) with
      | .failure => socketFailure S c w
      | .wouldBlock | .transferred [] => .ok ⟨.noTransfer, c, w, []⟩
      | .transferred bytes => .ok ⟨.success, advance c bytes.length, w, [.sent bytes]⟩ := by
  unfold connectionTransfer
  cases hs : c.state with
  | sendingHeader | sendingBody => rfl
  | _ => simp [ConnectionState.sending, hs] at hstate

theorem connectionTransfer_cases :
    Transfer S socket c w (connectionTransfer S socket c w) := by
  by_cases hr : c.state.receiving = true
  · rw [connectionTransfer_receiving S socket c w hr, Socket.recv]
    by_cases hf : socket.failed = true
    · rw [if_pos hf]
      exact .failed hf
    · rw [if_neg hf]
      by_cases hz : c.remainingBytes = 0
      · rw [if_pos hz]
        exact .idle
      · rw [if_neg hz]
        by_cases hin : socket.incoming = []
        · rw [if_pos hin]
          cases socket.peerClosed <;> exact .idle
        · rw [if_neg hin]
          have hne : socket.incoming.take c.remainingBytes ≠ [] := by
            simp [List.take_eq_nil_iff, hz, hin]
          have hle : (socket.incoming.take c.remainingBytes).length ≤ c.remainingBytes :=
            List.length_take_le ..
          generalize hb : socket.incoming.take c.remainingBytes = bytes at hne hle
          cases bytes with
          | nil => exact absurd rfl hne
          | cons b bs => exact .received _ hr hne hle hb.symm (by simpa using hf)
  by_cases hs : c.state.sending = true
  · rw [connectionTransfer_sending S socket c w hs, Socket.send]
    by_cases hf : socket.failed = true
    · rw [if_pos hf]
      exact .failed hf
    · rw [if_neg hf]
      by_cases hz : pendingBytes c w = []
      · rw [if_pos hz]
        exact .idle
      · rw [if_neg hz]
        by_cases hroom : socket.room = 0
        · rw [if_pos hroom]
          exact .idle
        · rw [if_neg hroom]
          have hne : (pendingBytes c w).take socket.room ≠ [] := by
            simp [List.take_eq_nil_iff, hz, hroom]
          have hle : ((pendingBytes c w).take socket.room).length ≤ c.remainingBytes := by
            rw [List.length_take, pendingBytes_length]
            exact Nat.min_le_right ..
          generalize hb : (pendingBytes c w).take socket.room = bytes at hne hle
          cases bytes with
          | nil => exact absurd rfl hne
          | cons b bs => exact .sent _ hs hne hle hb.symm (by simpa using hf)
  · have hother : connectionTransfer S socket c w = .error .assertion := by
      unfold connectionTransfer
      cases hc : c.state <;> simp_all [ConnectionState.receiving, ConnectionState.sending]
    rw [hother]
    exact .unsupported ⟨by simpa using hr, by simpa using hs⟩

/-- The ways in which `connection_transfer` returns. -/
inductive Transfer.Returns : Outcome σ → Prop
  | idle : Returns ⟨.noTransfer, c, w, []⟩
  | failed {o : Outcome σ} (failed : socket.failed = true) (failure : socketFailure S c w = .ok o)
      (closed : o.result = .disconnect) : Returns o
  | received (bytes : List UInt8) (state : c.state.receiving = true) (some : bytes ≠ [])
      (le : bytes.length ≤ c.remainingBytes) (front : bytes = socket.incoming.take c.remainingBytes)
      (works : socket.failed = false) :
      Returns ⟨.success, advance (storeReceived c w bytes).1 bytes.length,
        (storeReceived c w bytes).2, [.received bytes]⟩
  | sent (bytes : List UInt8) (state : c.state.sending = true) (some : bytes ≠ [])
      (le : bytes.length ≤ c.remainingBytes) (front : bytes = (pendingBytes c w).take socket.room)
      (works : socket.failed = false) :
      Returns ⟨.success, advance c bytes.length, w, [.sent bytes]⟩

/-- The ways in which `connection_proc` returns. -/
inductive Proc.Returns : Outcome σ → Prop
  | unsuccessful {o : Outcome σ} (transfer : connectionTransfer S socket c w = .ok o)
      (other : o.result ≠ .success) : Returns o
  | incomplete {o : Outcome σ} (transfer : connectionTransfer S socket c w = .ok o)
      (success : o.result = .success) (more : o.connection.remainingBytes ≠ 0) : Returns o
  | completed {o₁ o₂ : Outcome σ} (transfer : connectionTransfer S socket c w = .ok o₁)
      (success : o₁.result = .success) (complete : o₁.connection.remainingBytes = 0)
      (event : connectionEvent S o₁.connection o₁.world = .ok o₂) : Returns (o₂.after o₁.events)

theorem connectionProc_eq_of_transfer {o : Outcome σ}
    (h : connectionTransfer S socket c w = .ok o) :
    connectionProc S socket c w =
      if o.result ≠ .success then .ok o
      else if o.connection.remainingBytes ≠ 0 then .ok o
      else (connectionEvent S o.connection o.world).map (Outcome.after o.events) := by
  rw [connectionProc, h]

end

/-! ### Phases -/

def argumentsSize : RequestType → Nat
  | .get | .delete => keyArgumentsSize
  | .put => keyValueArgumentsSize
  | .ping => 0

def bodySize (c : Connection) : RequestType → Nat
  | .get | .delete => c.keySize
  | .put => (c.keySize + c.valueSize) % 2 ^ 32
  | .ping => 0

inductive Connection.Phase (c : Connection) : Prop
  | receivingHeader (state : c.state = .receivingHeader) (buffer : c.buffer = .header)
      (window : c.bufferIndex + c.remainingBytes = requestHeaderSize) (entry : c.entryHeader = none)
      (flags : c.flags = ⟨false, false, false⟩)
  | receivingArguments {t : RequestType} (state : c.state = .receivingArguments)
      (buffer : c.buffer = .arguments) (type : c.requestType = some t) (payload : t ≠ .ping)
      (window : c.bufferIndex + c.remainingBytes = argumentsSize t) (entry : c.entryHeader = none)
      (unallocated : c.flags.allocatedBuffer = false) (unlocked : c.flags.lockAcquired = false)
  | receivingBody {t : RequestType} {p : Pointer} (state : c.state = .receivingBody)
      (buffer : c.buffer = .memory (p.add entryHeaderSize)) (type : c.requestType = some t)
      (payload : t ≠ .ping) (window : c.bufferIndex + c.remainingBytes = bodySize c t)
      (entry : c.entryHeader = some p) (allocated : c.flags.allocatedBuffer = decide (t ≠ .put))
      (unlocked : c.flags.lockAcquired = false)
  | awaitingWriteUnblock (state : c.state = .awaitingWriteUnblock)
      (type : c.requestType = some .put) (unallocated : c.flags.allocatedBuffer = false)
      (unlocked : c.flags.lockAcquired = false)
  | awaitingReadUnblock {p : Pointer} (state : c.state = .awaitingReadUnblock)
      (type : c.requestType = some .get) (entry : c.entryHeader = some p)
      (unallocated : c.flags.allocatedBuffer = false) (unlocked : c.flags.lockAcquired = false)
  | sendingHeader {t : ResponseType} (state : c.state = .sendingHeader) (buffer : c.buffer = .header)
      (type : c.responseType = some t) (final : t ≠ .value)
      (window : c.bufferIndex + c.remainingBytes = responseHeaderSize)
      (unlocked : c.flags.lockAcquired = false)
  | sendingValue {p : Pointer} (state : c.state = .sendingHeader) (buffer : c.buffer = .header)
      (type : c.responseType = some .value)
      (window : c.bufferIndex + c.remainingBytes = aggregateResponseHeaderSize)
      (entry : c.entryHeader = some p) (unallocated : c.flags.allocatedBuffer = false)
      (locked : c.flags.lockAcquired = true)
  | sendingBody {p : Pointer} (state : c.state = .sendingBody) (type : c.responseType = some .value)
      (entry : c.entryHeader = some p) (unallocated : c.flags.allocatedBuffer = false)
      (locked : c.flags.lockAcquired = true)

/-- What holds of every connection that is not about to be closed. -/
structure Connection.Valid (c : Connection) : Prop where
  phase : c.Phase
  event : c.lockReleaseEvent = .none

/-- A step that does not close the connection leaves it valid. -/
def Outcome.Valid {σ : Type} (o : Outcome σ) : Prop := o.result ≠ .disconnect → o.connection.Valid

section
variable {σ : Type} {S : Services σ} {socket : Socket} {c : Connection} {w : World σ}

theorem Connection.Valid.receivingBody (h : c.Valid) (hs : c.state = .receivingBody) :
    ∃ t p, c.buffer = .memory (p.add entryHeaderSize) ∧ c.requestType = some t ∧ t ≠ .ping ∧
      c.bufferIndex + c.remainingBytes = bodySize c t ∧ c.entryHeader = some p ∧
      c.flags.lockAcquired = false := by
  cases h.phase with
  | @receivingBody t p state buffer type payload window entry allocated unlocked =>
    exact ⟨t, p, buffer, type, payload, window, entry, unlocked⟩
  | receivingHeader state | receivingArguments state | awaitingWriteUnblock state
  | awaitingReadUnblock state | sendingHeader state | sendingValue state | sendingBody state =>
    rw [hs] at state
    cases state

theorem Connection.Valid.awaitingWriteUnblock (h : c.Valid) (hs : c.state = .awaitingWriteUnblock) :
    c.requestType = some .put ∧ c.flags.allocatedBuffer = false ∧ c.flags.lockAcquired = false := by
  cases h.phase with
  | awaitingWriteUnblock state type unallocated unlocked => exact ⟨type, unallocated, unlocked⟩
  | receivingHeader state | receivingArguments state | receivingBody state
  | awaitingReadUnblock state | sendingHeader state | sendingValue state | sendingBody state =>
    rw [hs] at state
    cases state

theorem Connection.Valid.awaitingReadUnblock (h : c.Valid) (hs : c.state = .awaitingReadUnblock) :
    ∃ p, c.requestType = some .get ∧ c.entryHeader = some p ∧ c.flags.allocatedBuffer = false ∧
      c.flags.lockAcquired = false := by
  cases h.phase with
  | @awaitingReadUnblock p state type entry unallocated unlocked =>
    exact ⟨p, type, entry, unallocated, unlocked⟩
  | receivingHeader state | receivingArguments state | receivingBody state
  | awaitingWriteUnblock state | sendingHeader state | sendingValue state | sendingBody state =>
    rw [hs] at state
    cases state

theorem Connection.Valid.sendingBody (h : c.Valid) (hs : c.state = .sendingBody) :
    ∃ p, c.responseType = some .value ∧ c.entryHeader = some p := by
  cases h.phase with
  | sendingBody state type entry unallocated locked => exact ⟨_, type, entry⟩
  | receivingHeader state | receivingArguments state | receivingBody state
  | awaitingWriteUnblock state | awaitingReadUnblock state | sendingHeader state
  | sendingValue state =>
    rw [hs] at state
    cases state

theorem connectionInit_valid (fileDescriptor : Nat) (header arguments : ByteArea) :
    (connectionInit fileDescriptor header arguments).Valid :=
  ⟨.receivingHeader rfl rfl rfl rfl rfl, rfl⟩

theorem initRequest_valid (c : Connection) : (initRequest c).Valid :=
  ⟨.receivingHeader rfl rfl rfl rfl rfl, rfl⟩

theorem responseType_sendHeader (c : Connection) (t : ResponseType) :
    (sendHeader c t).responseType = some t := by
  simp [sendHeader, Connection.responseType, ByteArea.write, ResponseType.ofByte_toByte]

theorem sendHeader_valid {t : ResponseType} (he : c.lockReleaseEvent = .none)
    (hl : c.flags.lockAcquired = false) (ht : t ≠ .value) : (sendHeader c t).Valid :=
  ⟨.sendingHeader rfl rfl (responseType_sendHeader c t) ht rfl hl, he⟩

theorem finishRequest_valid (c : Connection) (w : World σ) : (finishRequest c w).Valid := by
  unfold finishRequest
  split
  · exact fun _ => initRequest_valid c
  · exact fun h => absurd rfl h

theorem Outcome.Valid.after {o : Outcome σ} (h : o.Valid) (events : List Event) :
    (o.after events).Valid := h

theorem attemptMemoryRead_valid (he : c.lockReleaseEvent = .none)
    (ht : c.requestType = some .get) (ha : c.flags.allocatedBuffer = false)
    (hl : c.flags.lockAcquired = false) : (attemptMemoryRead c w).Valid := by
  unfold attemptMemoryRead
  split
  · exact fun _ => sendHeader_valid he hl (by decide)
  · rename_i p hp
    split
    · exact fun _ => ⟨.awaitingReadUnblock rfl ht hp ha hl, he⟩
    · refine fun _ => ⟨.sendingValue (p := p) rfl rfl ?_ rfl hp ha rfl, he⟩
      have htype := responseType_sendHeader { c with flags := { c.flags with lockAcquired := true } } .value
      have hbyte : ∀ (h : ByteArea) (v : Nat), h.storeLE 1 4 v 0 = h 0 := fun h v =>
        ByteArea.storeLE_outside h 1 4 v (Or.inl Nat.zero_lt_one)
      simp only [Connection.responseType, hbyte] at htype ⊢
      exact htype

theorem attemptMemoryWrite_valid {o : Outcome σ} (he : c.lockReleaseEvent = .none)
    (ht : c.requestType = some .put) (ha : c.flags.allocatedBuffer = false)
    (hl : c.flags.lockAcquired = false) (h : attemptMemoryWrite S c w = .ok o) : o.Valid := by
  unfold attemptMemoryWrite at h
  split at h
  · cases h
  · cases h
    exact fun _ => sendHeader_valid he hl (by decide)
  · cases h
    exact fun _ => ⟨.awaitingWriteUnblock rfl ht ha hl, he⟩
  · cases h
  · cases h
    exact fun _ => ⟨.receivingBody rfl rfl ht (by decide) (Nat.zero_add _) rfl ha hl, he⟩

theorem eventReceivedHeader_valid (he : c.lockReleaseEvent = .none)
    (hc : c.entryHeader = none) (hf : c.flags = ⟨false, false, false⟩) :
    (eventReceivedHeader c w).Valid := by
  unfold eventReceivedHeader
  split
  · exact fun _ => sendHeader_valid he (by rw [hf]) (by decide)
  · have hflags : ∀ c' : Connection, c' = (if c.requestFlags % 2 = 1
        then { c with flags := { c.flags with keepAlive := true } } else c) →
        c'.lockReleaseEvent = .none ∧ c'.entryHeader = none ∧ c'.flags.allocatedBuffer = false ∧
          c'.flags.lockAcquired = false := by
      rintro c' rfl
      split <;> simp [he, hc, hf]
    generalize hc' : (if c.requestFlags % 2 = 1
      then { c with flags := { c.flags with keepAlive := true } } else c) = c'
    obtain ⟨he', hn', ha', hl'⟩ := hflags c' hc'.symm
    simp only
    split <;> rename_i ht
    · exact fun _ => sendHeader_valid he' hl' (by decide)
    · exact fun _ => ⟨.receivingArguments (t := .get) rfl rfl ht (by decide) rfl hn' ha' hl', he'⟩
    · exact fun _ => ⟨.receivingArguments (t := .delete) rfl rfl ht (by decide) rfl hn' ha' hl', he'⟩
    · exact fun _ => ⟨.receivingArguments (t := .put) rfl rfl ht (by decide) rfl hn' ha' hl', he'⟩
    · exact fun _ => sendHeader_valid he' hl' (by decide)

theorem eventReceivedArguments_valid {o : Outcome σ} (he : c.lockReleaseEvent = .none)
    (ha : c.flags.allocatedBuffer = false) (hl : c.flags.lockAcquired = false)
    (h : eventReceivedArguments S c w = .ok o) : o.Valid := by
  unfold eventReceivedArguments at h
  split at h
  · rename_i ht
    split at h <;> cases h
    · exact fun _ => sendHeader_valid he hl (by decide)
    · exact fun _ => ⟨.receivingBody (t := .get) rfl rfl ht (by decide) (Nat.zero_add _) rfl rfl hl, he⟩
  · rename_i ht
    split at h <;> cases h
    · exact fun _ => sendHeader_valid he hl (by decide)
    · exact fun _ =>
        ⟨.receivingBody (t := .delete) rfl rfl ht (by decide) (Nat.zero_add _) rfl rfl hl, he⟩
  · rename_i ht
    exact attemptMemoryWrite_valid he ht ha hl h
  · cases h

theorem eventReceivedBody_valid {o : Outcome σ} (he : c.lockReleaseEvent = .none)
    (hl : c.flags.lockAcquired = false) (h : eventReceivedBody S c w = .ok o) : o.Valid := by
  unfold eventReceivedBody at h
  split at h
  · rename_i ht hp
    simp only at h
    split at h <;> cases h
    exact (attemptMemoryRead_valid (c := { c with flags := { c.flags with allocatedBuffer := false }
                                                  entryHeader := _ }) he ht rfl hl).after _
  · simp only at h
    split at h <;> cases h
    exact fun _ => sendHeader_valid he hl (by decide)
  · simp only at h
    split at h <;> cases h <;> exact fun _ => sendHeader_valid he hl (by decide)
  · cases h
  · cases h
  · cases h

theorem eventSentHeader_final {t : ResponseType} (ht : c.responseType = some t) (hne : t ≠ .value) :
    eventSentHeader c w = .ok (finishRequest (if t.endsConnection
      then { c with flags := { c.flags with keepAlive := false } } else c) w) := by
  unfold eventSentHeader
  rw [ht]
  cases t with
  | value => exact absurd rfl hne
  | _ => rfl

theorem eventSentHeader_value {p : Pointer} (ht : c.responseType = some .value)
    (hp : c.entryHeader = some p) :
    eventSentHeader c w = .ok ⟨.success, { c with
      buffer := .memory (p.add (entryHeaderSize + EntryHeader.keySize w.memory p))
      remainingBytes := EntryHeader.valueSize w.memory p
      bufferIndex := 0
      state := .sendingBody }, w, []⟩ := by
  unfold eventSentHeader
  rw [ht, hp]

theorem eventSentBody_value {p : Pointer} (ht : c.responseType = some .value)
    (hp : c.entryHeader = some p) :
    eventSentBody c w = .ok ((finishRequest { c with
        lockReleaseEvent := (entryHeaderReleaseLock w.memory p).1
        flags := { c.flags with lockAcquired := false } }
      { w with memory := (entryHeaderReleaseLock w.memory p).2 }).after
        [.released p (entryHeaderReleaseLock w.memory p).1]) := by
  unfold eventSentBody
  rw [ht, hp]

theorem connectionEvent_valid {o : Outcome σ} (hc : c.Valid) (h : connectionEvent S c w = .ok o) :
    o.Valid := by
  obtain ⟨hphase, he⟩ := hc
  cases hphase with
  | receivingHeader state buffer window entry flags =>
    simp only [connectionEvent, state] at h
    cases h
    exact eventReceivedHeader_valid he entry flags
  | receivingArguments state buffer type payload window entry unallocated unlocked =>
    simp only [connectionEvent, state] at h
    exact eventReceivedArguments_valid he unallocated unlocked h
  | receivingBody state buffer type payload window entry allocated unlocked =>
    simp only [connectionEvent, state] at h
    exact eventReceivedBody_valid he unlocked h
  | awaitingWriteUnblock state | awaitingReadUnblock state =>
    simp only [connectionEvent, state] at h
    cases h
  | sendingHeader state buffer type final window unlocked =>
    simp only [connectionEvent, state, eventSentHeader_final type final] at h
    cases h
    exact finishRequest_valid _ w
  | sendingValue state buffer type window entry unallocated locked =>
    simp only [connectionEvent, state, eventSentHeader_value type entry] at h
    cases h
    exact fun _ => ⟨.sendingBody rfl type entry unallocated locked, he⟩
  | sendingBody state type entry unallocated locked =>
    simp only [connectionEvent, state, eventSentBody_value type entry] at h
    cases h
    exact (finishRequest_valid _ _).after _

theorem received_valid (hc : c.Valid) {bytes : List UInt8} (hr : c.state.receiving = true)
    (hle : bytes.length ≤ c.remainingBytes) :
    (advance (storeReceived c w bytes).1 bytes.length).Valid := by
  obtain ⟨hphase, he⟩ := hc
  cases hphase with
  | receivingHeader state buffer window entry flags =>
    simp only [storeReceived, buffer]
    exact ⟨.receivingHeader state rfl (by simp only [advance]; omega) entry flags, he⟩
  | receivingArguments state buffer type payload window entry unallocated unlocked =>
    simp only [storeReceived, buffer]
    exact ⟨.receivingArguments state rfl type payload (by simp only [advance]; omega) entry
      unallocated unlocked, he⟩
  | @receivingBody t p state buffer type payload window entry allocated unlocked =>
    simp only [storeReceived, buffer]
    refine ⟨.receivingBody state buffer type payload ?_ entry allocated unlocked, he⟩
    have hsize : bodySize (advance c bytes.length) t = bodySize c t := by cases t <;> rfl
    rw [hsize]
    simp only [advance]
    omega
  | awaitingWriteUnblock state | awaitingReadUnblock state | sendingHeader state
  | sendingValue state | sendingBody state =>
    rw [state] at hr
    cases hr

theorem sent_valid (hc : c.Valid) {n : Nat} (hs : c.state.sending = true)
    (hle : n ≤ c.remainingBytes) : (advance c n).Valid := by
  obtain ⟨hphase, he⟩ := hc
  cases hphase with
  | sendingHeader state buffer type final window unlocked =>
    exact ⟨.sendingHeader state buffer type final (by simp only [advance]; omega) unlocked, he⟩
  | sendingValue state buffer type window entry unallocated locked =>
    exact ⟨.sendingValue state buffer type (by simp only [advance]; omega) entry unallocated locked,
      he⟩
  | sendingBody state type entry unallocated locked =>
    exact ⟨.sendingBody state type entry unallocated locked, he⟩
  | receivingHeader state | receivingArguments state | receivingBody state
  | awaitingWriteUnblock state | awaitingReadUnblock state =>
    rw [state] at hs
    cases hs

theorem socketFailure_result {o : Outcome σ} (h : socketFailure S c w = .ok o) :
    o.result = .disconnect := by
  unfold socketFailure at h
  split at h
  · cases h
  · simp only at h
    split at h
    · split at h <;> cases h
      rfl
    · cases h
      rfl

theorem connectionTransfer_returns {o : Outcome σ} (h : connectionTransfer S socket c w = .ok o) :
    Transfer.Returns S socket c w o := by
  have hcases := connectionTransfer_cases S socket c w
  rw [h] at hcases
  generalize hr : (.ok o : Except Fault (Outcome σ)) = r at hcases
  cases hcases with
  | unsupported => cases hr
  | idle =>
    cases hr
    exact .idle
  | failed failed => exact .failed failed hr.symm (socketFailure_result hr.symm)
  | received bytes state some le front works =>
    cases hr
    exact .received bytes state some le front works
  | sent bytes state some le front works =>
    cases hr
    exact .sent bytes state some le front works

theorem connectionTransfer_result {o : Outcome σ} (h : connectionTransfer S socket c w = .ok o) :
    o.result = .noTransfer ∨ o.result = .disconnect ∨ o.result = .success := by
  have hreturns := connectionTransfer_returns h
  cases hreturns with
  | idle => exact Or.inl rfl
  | failed _ _ closed => exact Or.inr (Or.inl closed)
  | received | sent => exact Or.inr (Or.inr rfl)

theorem connectionTransfer_kept {o : Outcome σ} (h : connectionTransfer S socket c w = .ok o)
    (hopen : o.result ≠ .disconnect) :
    o.connection.state = c.state ∧ o.connection.entryHeader = c.entryHeader := by
  have hreturns := connectionTransfer_returns h
  cases hreturns with
  | failed _ _ closed => exact absurd closed hopen
  | idle | sent => exact ⟨rfl, rfl⟩
  | received bytes => exact ⟨storeReceived_state c w bytes, storeReceived_entryHeader c w bytes⟩

theorem connectionTransfer_valid {o : Outcome σ} (hc : c.Valid)
    (h : connectionTransfer S socket c w = .ok o) : o.Valid := by
  have hreturns := connectionTransfer_returns h
  cases hreturns with
  | idle => exact fun _ => hc
  | failed _ _ closed => exact fun hopen => absurd closed hopen
  | received bytes state some le front => exact fun _ => received_valid hc state le
  | sent bytes state some le front => exact fun _ => sent_valid hc state le

theorem connectionProc_returns {o : Outcome σ} (h : connectionProc S socket c w = .ok o) :
    Proc.Returns S socket c w o := by
  cases ht : connectionTransfer S socket c w with
  | error fault => simp [connectionProc, ht] at h
  | ok o₁ =>
    rw [connectionProc_eq_of_transfer S socket c w ht] at h
    split at h
    · rename_i hother
      cases h
      exact .unsuccessful ht hother
    · rename_i hsuccess
      have success : o₁.result = .success := by simpa using hsuccess
      split at h
      · rename_i hmore
        cases h
        exact .incomplete ht success hmore
      · rename_i hdone
        cases he : connectionEvent S o₁.connection o₁.world with
        | error fault => simp [he, Except.map] at h
        | ok o₂ =>
          rw [he] at h
          cases h
          exact .completed ht success (by simpa using hdone) he

theorem connectionProc_valid {o : Outcome σ} (hc : c.Valid)
    (h : connectionProc S socket c w = .ok o) : o.Valid := by
  have hreturns := connectionProc_returns h
  cases hreturns with
  | unsuccessful transfer | incomplete transfer => exact connectionTransfer_valid hc transfer
  | @completed o₁ o₂ transfer success complete event =>
    have hopen : o₁.result ≠ .disconnect := by rw [success]; decide
    exact (connectionEvent_valid (connectionTransfer_valid hc transfer hopen) event).after _

/- A retry succeeds or blocks again; it never closes the connection. -/
theorem attemptMemoryRead_result (c : Connection) (w : World σ) :
    (attemptMemoryRead c w).result = .success ∨ (attemptMemoryRead c w).result = .readBlocked := by
  unfold attemptMemoryRead
  split
  · exact Or.inl rfl
  · split
    · exact Or.inr rfl
    · exact Or.inl rfl

theorem attemptMemoryRead_events (c : Connection) (w : World σ) : (attemptMemoryRead c w).events = [] := by
  unfold attemptMemoryRead
  split
  · rfl
  · split <;> rfl

theorem attemptMemoryWrite_result {o : Outcome σ} (h : attemptMemoryWrite S c w = .ok o) :
    o.result = .success ∨ o.result = .writeBlocked := by
  unfold attemptMemoryWrite at h
  split at h <;> cases h
  · exact Or.inl rfl
  · exact Or.inr rfl
  · exact Or.inl rfl

/- Receiving never closes the connection either. -/
theorem connectionEvent_result {o : Outcome σ} (hr : c.state.receiving = true)
    (h : connectionEvent S c w = .ok o) : o.result ≠ .disconnect := by
  unfold connectionEvent at h
  split at h
  · cases h
    unfold eventReceivedHeader
    split
    · simp
    · simp only
      split <;> simp
  · unfold eventReceivedArguments at h
    split at h
    · split at h <;> cases h <;> simp
    · split at h <;> cases h <;> simp
    · rcases attemptMemoryWrite_result h with hw | hw <;> rw [hw] <;> decide
    · cases h
  · unfold eventReceivedBody at h
    split at h
    · simp only at h
      split at h <;> cases h
      simp only [Outcome.after]
      rcases attemptMemoryRead_result _ _ with hw | hw <;> rw [hw] <;> decide
    · simp only at h
      split at h <;> cases h
      simp
    · simp only at h
      split at h <;> cases h <;> simp
    · cases h
    · cases h
    · cases h
  · rename_i hs
    rw [hs] at hr
    cases hr
  · rename_i hs
    rw [hs] at hr
    cases hr
  · cases h

theorem connectionUnblockRead_result {o : Outcome σ} (h : connectionUnblockRead S c w = .ok o) :
    o.result = .success ∨ o.result = .readBlocked := by
  unfold connectionUnblockRead at h
  split at h
  · split at h
    · cases h
    · split at h <;> cases h <;> exact attemptMemoryRead_result _ w
  · cases h

theorem connectionUnblockWrite_result {o : Outcome σ} (h : connectionUnblockWrite S c w = .ok o) :
    o.result = .success ∨ o.result = .writeBlocked := by
  unfold connectionUnblockWrite at h
  split at h
  · exact attemptMemoryWrite_result h
  · cases h

theorem connectionUnblockRead_valid {o : Outcome σ} (hc : c.Valid)
    (h : connectionUnblockRead S c w = .ok o) : o.Valid := by
  unfold connectionUnblockRead at h
  split at h
  · rename_i hs
    obtain ⟨p, type, entry, unallocated, unlocked⟩ := hc.awaitingReadUnblock hs
    rw [entry] at h
    simp only at h
    split at h <;> cases h
    · exact (attemptMemoryRead_valid (c := { c with entryHeader := S.entryHashMapGet _ w }) hc.event type
        unallocated unlocked).after _
    · exact attemptMemoryRead_valid hc.event type unallocated unlocked
  · cases h

theorem connectionUnblockWrite_valid {o : Outcome σ} (hc : c.Valid)
    (h : connectionUnblockWrite S c w = .ok o) : o.Valid := by
  unfold connectionUnblockWrite at h
  split at h
  · rename_i hs
    obtain ⟨type, unallocated, unlocked⟩ := hc.awaitingWriteUnblock hs
    exact attemptMemoryWrite_valid hc.event type unallocated unlocked h
  · cases h

/-! ### Reachable connections -/

/-- The connections that its calls can produce, with anything done to the world in between. -/
inductive Connection.Reachable (S : Services σ) : Connection → Prop
  | init (fileDescriptor : Nat) (header arguments : ByteArea) :
      Reachable S (connectionInit fileDescriptor header arguments)
  | proc {c : Connection} {o : Outcome σ} (socket : Socket) (w : World σ) (reachable : Reachable S c)
      (step : connectionProc S socket c w = .ok o) (open_ : o.result ≠ .disconnect) :
      Reachable S o.connection
  | unblockRead {c : Connection} {o : Outcome σ} (w : World σ) (reachable : Reachable S c)
      (step : connectionUnblockRead S c w = .ok o) : Reachable S o.connection
  | unblockWrite {c : Connection} {o : Outcome σ} (w : World σ) (reachable : Reachable S c)
      (step : connectionUnblockWrite S c w = .ok o) : Reachable S o.connection

theorem Connection.Reachable.valid (h : Reachable S c) : c.Valid := by
  induction h with
  | init fileDescriptor header arguments => exact connectionInit_valid ..
  | proc socket w reachable step open_ ih => exact connectionProc_valid ih step open_
  | unblockRead w reachable step ih =>
    refine connectionUnblockRead_valid ih step ?_
    rcases connectionUnblockRead_result step with hr | hr <;> rw [hr] <;> decide
  | unblockWrite w reachable step ih =>
    refine connectionUnblockWrite_valid ih step ?_
    rcases connectionUnblockWrite_result step with hr | hr <;> rw [hr] <;> decide

end

end CacheServer
