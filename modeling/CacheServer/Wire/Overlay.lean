import CacheServer.Model.Server
import CacheServer.Wire.Framing

/-!
# The header overlay

Request and response header are members of one union. `HeaderLog` keeps, beside
the connection, the bytes that were received as the header of its request and
the type that send_header was last called with. In every state the member that
the state reads agrees with the log.
-/

namespace CacheServer
open EntryHeader

/-- The header of the current request as far as it has been received, and the type of its
response. -/
structure HeaderLog where
  request : List UInt8
  response : Option ResponseType
  deriving DecidableEq

def HeaderLog.requestType (log : HeaderLog) : Option RequestType :=
  log.request[3]?.bind RequestType.ofByte

/-- A call that received `bytes` in the state `state`, passed `response` to send_header, and
returned `result`. -/
def HeaderLog.after (log : HeaderLog) (state : ConnectionState) (bytes : List UInt8)
    (response : Option ResponseType) (result : ConnectionResult) : HeaderLog :=
  if result = .newRequest then ⟨[], none⟩
  else ⟨if state = .receivingHeader then log.request ++ bytes else log.request,
    response.or log.response⟩

/-- The states between the header of a request and that of its response. -/
def ConnectionState.requested : ConnectionState → Bool
  | .receivingArguments | .awaitingWriteUnblock | .receivingBody | .awaitingReadUnblock => true
  | _ => false

/-! ### Calls of send_header -/

section
variable {σ : Type} (S : Services σ)

/-- The type with which `attempt_memory_read` calls send_header, if it does. -/
def readResponse (entryHeader : Option Pointer) (w : World σ) : Option ResponseType :=
  match entryHeader with
  | none => some .notFound
  | some p => if locks w.memory p = entryHeaderLockCapacity then none else some .value

def writeResponse (c : Connection) (w : World σ) : Option ResponseType :=
  match S.memoryQueueAllocate c.keySize c.valueSize (S.timeGetTimestamp w + S.entryExpiryMicros w)
      c.entryHeader w with
  | .ok (.outOfMemory, _, _) => some .outOfMemory
  | _ => none

def headerResponse (c : Connection) : Option ResponseType :=
  if c.version ≠ cacheProtocolVersion then some .unsupportedVersion
  else
    match c.requestType with
    | some .ping => some .pong
    | some .get | some .delete | some .put => none
    | none => some .unknownRequest

def argumentsResponse (c : Connection) (w : World σ) : Option ResponseType :=
  match c.requestType with
  | some .put => writeResponse S c w
  | _ => if (S.malloc (entryHeaderSize + c.keySize) w).1 = none then some .outOfMemory else none

def bodyResponse (c : Connection) (w : World σ) : Option ResponseType :=
  match c.requestType, c.entryHeader with
  | some .get, some p =>
    match S.free (.memory p) w with
    | .ok w' => readResponse (S.entryHashMapGet p w) w'
    | .error _ => none
  | some .put, some p => if (S.entryHashMapPut p w).1 then some .outOfMemory else some .ok
  | some .delete, some _ => some .ok
  | _, _ => none

/-- The type with which the switch of connection_proc calls send_header. -/
def eventResponse (c : Connection) (w : World σ) : Option ResponseType :=
  match c.state with
  | .receivingHeader => headerResponse c
  | .receivingArguments => argumentsResponse S c w
  | .receivingBody => bodyResponse S c w
  | _ => none

/-- What the transfer of connection_proc receives. -/
def transferReceives (socket : Socket) (c : Connection) (w : World σ) : List UInt8 :=
  match connectionTransfer S socket c w with
  | .ok o => o.events.flatMap Event.receivedBytes
  | .error _ => []

def procResponse (socket : Socket) (c : Connection) (w : World σ) : Option ResponseType :=
  match connectionTransfer S socket c w with
  | .ok ⟨.success, c', w', _⟩ => if c'.remainingBytes = 0 then eventResponse S c' w' else none
  | _ => none

def retriedResponse (c : Connection) (w : World σ) : Option ResponseType :=
  match c.entryHeader with
  | none => none
  | some p => readResponse (if active w.memory p = 0 then S.entryHashMapGet p w else some p) w

/-- The connections that its calls can produce, with what was received and answered. Calls are made
in the states for which they are meant; in between, anything may be done to the world. -/
inductive HeaderRun (S : Services σ) : Connection → HeaderLog → Prop
  | opened (fileDescriptor : Nat) (header arguments : ByteArea) :
      HeaderRun S (connectionInit fileDescriptor header arguments) ⟨[], none⟩
  | proceeded {c : Connection} {log : HeaderLog} {o : Outcome σ} (socket : Socket) (w : World σ)
      (run : HeaderRun S c log) (legal : c.state.receiving = true ∨ c.state.sending = true)
      (call : connectionProc S socket c w = .ok o) (open_ : o.result ≠ .disconnect) :
      HeaderRun S o.connection (log.after c.state (transferReceives S socket c w)
        (procResponse S socket c w) o.result)
  | unblockedRead {c : Connection} {log : HeaderLog} {o : Outcome σ} (w : World σ)
      (run : HeaderRun S c log) (legal : c.state = .awaitingReadUnblock)
      (call : connectionUnblockRead S c w = .ok o) :
      HeaderRun S o.connection (log.after c.state [] (retriedResponse S c w) o.result)
  | unblockedWrite {c : Connection} {log : HeaderLog} {o : Outcome σ} (w : World σ)
      (run : HeaderRun S c log) (legal : c.state = .awaitingWriteUnblock)
      (call : connectionUnblockWrite S c w = .ok o) :
      HeaderRun S o.connection (log.after c.state [] (writeResponse S c w) o.result)

/-- A service fails an assertion of its own. -/
def Services.Asserts : Prop :=
  (∃ keySize valueSize expiry p w,
    S.memoryQueueAllocate keySize valueSize expiry p w = .error .assertion) ∨
    ∃ b w, S.free b w = .error .assertion

end

/-- The header has what the state reads in it. -/
structure Overlay (c : Connection) (log : HeaderLog) : Prop where
  receiving : c.state = .receivingHeader → c.header.read 0 c.bufferIndex = log.request
  request : c.state.requested = true → c.header.read 0 requestHeaderSize = log.request
  response : c.state.sending = true → ∃ t, log.response = some t ∧ c.header 0 = t.toByte

/-- The types of request that a state serves. -/
def ConnectionState.serves : ConnectionState → RequestType → Bool
  | .receivingArguments, t | .receivingBody, t => t ≠ .ping
  | .awaitingWriteUnblock, t => t = .put
  | .awaitingReadUnblock, t => t = .get
  | _, _ => false

/-- Each view of the header is used only while it is valid. -/
structure HeaderSound (c : Connection) (log : HeaderLog) : Prop where
  request : c.state.requested = true → c.header.read 0 requestHeaderSize = log.request ∧
    ∃ t, log.requestType = some t ∧ c.requestType = some t ∧ c.state.serves t = true
  response : c.state.sending = true → ∃ t, log.response = some t ∧ c.header 0 = t.toByte ∧
    (c.state = .sendingBody → t = .value) ∧ (t = .value → c.entryHeader ≠ none)

/-- A call in a state for which it is meant reaches no assertion but that of a service. -/
structure AssertFree {σ : Type} (S : Services σ) (c : Connection) : Prop where
  proc : c.state.receiving = true ∨ c.state.sending = true → ∀ socket w,
    connectionProc S socket c w = .error .assertion → S.Asserts
  unblockRead : c.state = .awaitingReadUnblock → ∀ w, connectionUnblockRead S c w ≠ .error .assertion
  unblockWrite : c.state = .awaitingWriteUnblock → ∀ w,
    connectionUnblockWrite S c w = .error .assertion → S.Asserts

/-- What a completed transfer, or a retry, does to the header. -/
inductive Outcome.Heads {σ : Type} (c : Connection) (response : Option ResponseType) (o : Outcome σ) :
    Prop
  | request (none : response = none) (header : o.connection.header = c.header)
      (state : o.connection.state.requested = true) (same : o.result ≠ .newRequest)
  | response {t : ResponseType} (some : response = some t) (byte : o.connection.header 0 = t.toByte)
      (state : o.connection.state = .sendingHeader) (same : o.result ≠ .newRequest)

section
variable {σ : Type} {S : Services σ} {socket : Socket} {c : Connection} {w : World σ} {o : Outcome σ}
  {log : HeaderLog}

theorem sendHeader_byte (c : Connection) (t : ResponseType) : (sendHeader c t).header 0 = t.toByte := by
  simp [sendHeader, ByteArea.write]

theorem Outcome.Heads.of_sendHeader (d : Connection) (t : ResponseType) {w' : World σ}
    {events : List Event} : Outcome.Heads c (some t) ⟨.success, sendHeader d t, w', events⟩ :=
  .response rfl (sendHeader_byte d t) rfl (by simp)

theorem attemptMemoryRead_heads (c : Connection) (w : World σ) :
    (attemptMemoryRead c w).Heads c (readResponse c.entryHeader w) := by
  unfold attemptMemoryRead readResponse
  cases c.entryHeader with
  | none => exact .of_sendHeader ..
  | some p =>
    unfold entryHeaderAcquireLock
    by_cases hl : locks w.memory p = entryHeaderLockCapacity
    · simp only [hl, if_true]
      exact .request rfl rfl rfl (by simp)
    · simp only [hl, if_false]
      have hbyte : ∀ (h : ByteArea) (v : Nat), h.storeLE 1 4 v 0 = h 0 := fun h v =>
        ByteArea.storeLE_outside h 1 4 v (Or.inl Nat.zero_lt_one)
      refine .response rfl ?_ rfl (by simp)
      simp only [hbyte]
      exact sendHeader_byte ..

theorem attemptMemoryWrite_heads (h : attemptMemoryWrite S c w = .ok o) :
    o.Heads c (writeResponse S c w) := by
  unfold attemptMemoryWrite at h
  unfold writeResponse
  split at h
  · cases h
  · rename_i hcall
    cases h
    rw [hcall]
    exact .of_sendHeader ..
  · rename_i hcall
    cases h
    rw [hcall]
    exact .request rfl rfl rfl (by simp)
  · cases h
  · rename_i result p w' hoom hblocked hcall
    cases h
    rw [hcall]
    refine .request ?_ rfl rfl (by simp)
    cases result with
    | outOfMemory => exact (hoom rfl).elim
    | writeBlocked | success | none => rfl

theorem eventReceivedHeader_heads (c : Connection) (w : World σ) :
    (eventReceivedHeader c w).Heads c (headerResponse c) := by
  unfold eventReceivedHeader headerResponse
  split
  · exact .of_sendHeader ..
  · have hkept : ∀ c' : Connection, c' = (if c.requestFlags % 2 = 1
        then { c with flags := { c.flags with keepAlive := true } } else c) →
        c'.header = c.header := by
      intro c' hc'
      rw [hc']
      split <;> rfl
    generalize hc' : (if c.requestFlags % 2 = 1
      then { c with flags := { c.flags with keepAlive := true } } else c) = c'
    have hheader := hkept c' hc'.symm
    have htype : c'.requestType = c.requestType := by
      unfold Connection.requestType
      rw [hheader]
    simp only [htype]
    cases c.requestType with
    | none => exact .of_sendHeader ..
    | some type =>
      cases type with
      | ping => exact .of_sendHeader ..
      | get | put | delete => exact .request rfl hheader rfl (by simp)

theorem eventReceivedArguments_heads (h : eventReceivedArguments S c w = .ok o) :
    o.Heads c (argumentsResponse S c w) := by
  unfold eventReceivedArguments at h
  unfold argumentsResponse
  split at h
  · rename_i ht
    simp only [ht]
    split at h <;> rename_i hcall <;> cases h <;> rw [hcall]
    · exact .of_sendHeader ..
    · exact .request rfl rfl rfl (by simp)
  · rename_i ht
    simp only [ht]
    split at h <;> rename_i hcall <;> cases h <;> rw [hcall]
    · exact .of_sendHeader ..
    · exact .request rfl rfl rfl (by simp)
  · rename_i ht
    simp only [ht]
    exact attemptMemoryWrite_heads h
  · cases h

theorem eventReceivedBody_heads (h : eventReceivedBody S c w = .ok o) :
    o.Heads c (bodyResponse S c w) := by
  unfold eventReceivedBody at h
  unfold bodyResponse
  split at h
  · rename_i p ht hp
    simp only at h
    simp only [ht, hp]
    split at h
    · cases h
    · rename_i w' hfree
      cases h
      rw [hfree]
      have hread := attemptMemoryRead_heads { c with
        flags := { c.flags with allocatedBuffer := false }
        entryHeader := S.entryHashMapGet p w } w'
      cases hread with
      | request none header state same => exact .request none header state same
      | response some byte state same => exact .response some byte state same
  · rename_i p ht hp
    simp only at h
    simp only [ht, hp]
    split at h
    · cases h
    · cases h
      exact .of_sendHeader ..
  · rename_i p ht hp
    simp only at h
    simp only [ht, hp]
    split at h <;> rename_i hput <;> cases h
    · rw [if_pos hput]
      exact .of_sendHeader ..
    · rw [if_neg hput]
      exact .of_sendHeader ..
  · cases h
  · cases h
  · cases h

/-! ### What the header keeps -/

theorem requested_not_sending {s : ConnectionState} (h : s.requested = true) :
    s ≠ .receivingHeader ∧ s.sending = false := by
  cases s <;> simp_all [ConnectionState.requested, ConnectionState.sending]

/-- A call that goes on with the request, or answers it. -/
theorem Outcome.Heads.overlay {response : Option ResponseType} {bytes : List UInt8}
    {state : ConnectionState} (h : o.Heads c response)
    (hread : c.header.read 0 requestHeaderSize =
      if state = .receivingHeader then log.request ++ bytes else log.request) :
    Overlay o.connection (log.after state bytes response o.result) := by
  cases h with
  | request none header hstate same =>
    obtain ⟨hne, hsending⟩ := requested_not_sending hstate
    rw [HeaderLog.after, if_neg same]
    refine ⟨fun hs => absurd hs hne, fun _ => ?_, fun hs => ?_⟩
    · rw [header]
      exact hread
    · rw [hsending] at hs
      cases hs
  | @response t some byte hstate same =>
    rw [HeaderLog.after, if_neg same]
    refine ⟨fun hs => ?_, fun hs => ?_, fun _ => ⟨t, ?_, byte⟩⟩
    · cases hstate.symm.trans hs
    · rw [hstate] at hs
      cases hs
    · rw [some]
      rfl

theorem Overlay.initRequest (d : Connection) : Overlay (initRequest d) ⟨[], none⟩ :=
  ⟨fun _ => rfl, fun hs => (by cases hs), fun hs => (by cases hs)⟩

/-- Past the header of the request, only the header matters, and which member is in use. -/
theorem Overlay.kept {d : Connection} (h : Overlay c log) (header : d.header = c.header)
    (past : d.state ≠ .receivingHeader) (requested : d.state.requested = c.state.requested)
    (sending : d.state.sending = c.state.sending) : Overlay d log := by
  refine ⟨fun hs => absurd hs past, fun hs => ?_, fun hs => ?_⟩
  · rw [header]
    exact h.request (requested.symm.trans hs)
  · rw [header]
    exact h.response (sending.symm.trans hs)

/-- A request that has been answered. -/
theorem finishRequest_overlay (d : Connection) (w : World σ) (h : Overlay d log)
    {state : ConnectionState} (hs : state ≠ .receivingHeader) (bytes : List UInt8) :
    Overlay (finishRequest d w).connection (log.after state bytes none (finishRequest d w).result) := by
  unfold finishRequest
  split
  · exact .initRequest d
  · rw [HeaderLog.after, if_neg (by simp), if_neg hs]
    exact h

/-- The log after a transfer. -/
def HeaderLog.receive (log : HeaderLog) (state : ConnectionState) (bytes : List UInt8) : HeaderLog :=
  { log with request := if state = .receivingHeader then log.request ++ bytes else log.request }

theorem HeaderLog.receive_nil (log : HeaderLog) (state : ConnectionState) :
    log.receive state [] = log := by
  unfold receive
  rw [List.append_nil, ite_self]

theorem HeaderLog.receive_past (log : HeaderLog) {state : ConnectionState}
    (h : state ≠ .receivingHeader) (bytes : List UInt8) : log.receive state bytes = log := by
  unfold receive
  rw [if_neg h]

theorem HeaderLog.after_transfer (log : HeaderLog) (state : ConnectionState) (bytes : List UInt8)
    {result : ConnectionResult} (h : result ≠ .newRequest) :
    log.after state bytes none result = log.receive state bytes := if_neg h

theorem received_overlay (hc : c.Valid) (h : Overlay c log) {bytes : List UInt8}
    (hs : c.state.receiving = true) :
    Overlay (advance (storeReceived c w bytes).1 bytes.length) (log.receive c.state bytes) := by
  obtain ⟨hphase, -⟩ := hc
  cases hphase with
  | receivingHeader state buffer =>
    rw [state, HeaderLog.receive, if_pos rfl, ← h.receiving state]
    simp only [storeReceived, buffer]
    refine ⟨fun _ => ?_, fun hs => ?_, fun hs => ?_⟩
    · have hread := ByteArea.read_write_next c.header 0 c.bufferIndex bytes
      rw [Nat.zero_add] at hread
      exact hread
    · simp only [advance, state] at hs
      cases hs
    · simp only [advance, state] at hs
      cases hs
  | receivingArguments state buffer | receivingBody state buffer =>
    rw [state, HeaderLog.receive, if_neg (by simp)]
    simp only [storeReceived, buffer]
    exact h.kept rfl (by simp [advance, state]) rfl rfl
  | awaitingWriteUnblock state | awaitingReadUnblock state | sendingHeader state
  | sendingValue state | sendingBody state =>
    rw [state] at hs
    cases hs

theorem connectionTransfer_overlay (hc : c.Valid) (h : Overlay c log)
    (ht : connectionTransfer S socket c w = .ok o) (hopen : o.result ≠ .disconnect) :
    Overlay o.connection (log.receive c.state (o.events.flatMap Event.receivedBytes)) := by
  have hreturns := connectionTransfer_returns ht
  cases hreturns with
  | failed _ _ closed => exact absurd closed hopen
  | idle =>
    rw [List.flatMap_nil, HeaderLog.receive_nil]
    exact h
  | received bytes state =>
    have hbytes : List.flatMap Event.receivedBytes [.received bytes] = bytes := List.append_nil _
    rw [hbytes]
    exact received_overlay hc h state
  | sent bytes state =>
    have hbytes : List.flatMap Event.receivedBytes [.sent bytes] = [] := rfl
    have hpast : c.state ≠ .receivingHeader := fun hs => by
      rw [hs] at state
      cases state
    rw [hbytes, HeaderLog.receive_nil]
    exact h.kept rfl hpast rfl rfl

/-- The switch of connection_proc, after the header's bytes have been logged. -/
theorem connectionEvent_overlay (hc : c.Valid) (hzero : c.remainingBytes = 0) {bytes : List UInt8}
    (h : Overlay c (log.receive c.state bytes)) (he : connectionEvent S c w = .ok o) :
    Overlay o.connection (log.after c.state bytes (eventResponse S c w) o.result) := by
  obtain ⟨hphase, -⟩ := hc
  cases hphase with
  | receivingHeader state buffer window =>
    simp only [connectionEvent, state] at he
    cases he
    have hread := h.receiving state
    rw [hzero] at window
    simp only [eventResponse, state]
    refine (eventReceivedHeader_heads c w).overlay ?_
    rw [← window, Nat.add_zero, hread, state]
    rfl
  | receivingArguments state =>
    simp only [connectionEvent, state] at he
    simp only [eventResponse, state]
    refine (eventReceivedArguments_heads he).overlay ?_
    rw [h.request (by rw [state]; rfl), state]
    rfl
  | receivingBody state =>
    simp only [connectionEvent, state] at he
    simp only [eventResponse, state]
    refine (eventReceivedBody_heads he).overlay ?_
    rw [h.request (by rw [state]; rfl), state]
    rfl
  | awaitingWriteUnblock state | awaitingReadUnblock state =>
    simp only [connectionEvent, state] at he
    cases he
  | @sendingHeader t state buffer type final =>
    simp only [connectionEvent, state, eventSentHeader_final type final] at he
    cases he
    rw [log.receive_past (by rw [state]; decide)] at h
    simp only [eventResponse, state]
    refine finishRequest_overlay _ w ?_ (by simp) bytes
    split
    · exact h.kept rfl (by simp) (by rw [state]) (by rw [state])
    · exact h
  | sendingValue state buffer type window entry =>
    simp only [connectionEvent, state, eventSentHeader_value type entry] at he
    cases he
    simp only [eventResponse, state]
    rw [log.receive_past (by rw [state]; decide)] at h
    rw [log.after_transfer _ _ (by simp), log.receive_past (by decide)]
    exact h.kept rfl (by simp) (by rw [state]; rfl) (by rw [state]; rfl)
  | sendingBody state type entry =>
    simp only [connectionEvent, state, eventSentBody_value type entry] at he
    cases he
    rw [log.receive_past (by rw [state]; decide)] at h
    simp only [eventResponse, state]
    refine finishRequest_overlay _ _ ?_ (by simp) bytes
    exact h.kept rfl (by simp) (by rw [state]) (by rw [state])

theorem connectionProc_overlay (hc : c.Valid) (h : Overlay c log)
    (hp : connectionProc S socket c w = .ok o) (hopen : o.result ≠ .disconnect) :
    Overlay o.connection (log.after c.state (transferReceives S socket c w)
      (procResponse S socket c w) o.result) := by
  have hreturns := connectionProc_returns hp
  cases hreturns with
  | unsuccessful transfer other =>
    have hsame : o.result ≠ .newRequest := by
      rcases connectionTransfer_result transfer with hr | hr | hr <;> rw [hr] <;> decide
    have hnone : procResponse S socket c w = none := by
      rw [procResponse, transfer]
      obtain ⟨result, c₁, w₁, events⟩ := o
      cases result with
      | success => exact absurd rfl other
      | noTransfer | newRequest | disconnect | readBlocked | writeBlocked => rfl
    rw [hnone, log.after_transfer _ _ hsame, transferReceives, transfer]
    exact connectionTransfer_overlay hc h transfer hopen
  | incomplete transfer success more =>
    have hnone : procResponse S socket c w = none := by
      rw [procResponse, transfer]
      obtain ⟨result, c₁, w₁, events⟩ := o
      cases success
      exact if_neg more
    rw [hnone, log.after_transfer _ _ (by rw [success]; decide), transferReceives, transfer]
    exact connectionTransfer_overlay hc h transfer hopen
  | @completed o₁ o₂ transfer success complete event =>
    have hopen₁ : o₁.result ≠ .disconnect := by rw [success]; decide
    have hresponse : procResponse S socket c w = eventResponse S o₁.connection o₁.world := by
      rw [procResponse, transfer]
      obtain ⟨result, c₁, w₁, events⟩ := o₁
      cases success
      exact if_pos complete
    have htransferred := connectionTransfer_overlay hc h transfer hopen₁
    obtain ⟨hstate, -⟩ := connectionTransfer_kept transfer hopen₁
    rw [← hstate] at htransferred
    rw [hresponse, ← hstate, transferReceives, transfer]
    have hvalid := connectionTransfer_valid hc transfer hopen₁
    have hover := connectionEvent_overlay hvalid complete htransferred event
    exact hover

theorem connectionUnblockRead_overlay (h : Overlay c log)
    (hr : connectionUnblockRead S c w = .ok o) :
    Overlay o.connection (log.after c.state [] (retriedResponse S c w) o.result) := by
  unfold connectionUnblockRead at hr
  split at hr
  · rename_i hs
    have hread : c.header.read 0 requestHeaderSize =
        if c.state = .receivingHeader then log.request ++ [] else log.request := by
      rw [h.request (by rw [hs]; rfl), hs]
      rfl
    cases hp : c.entryHeader with
    | none => simp [hp] at hr
    | some p =>
      simp only [hp] at hr
      simp only [retriedResponse, hp]
      split at hr <;> rename_i ha <;> cases hr
      · rw [if_pos ha]
        have hheads := attemptMemoryRead_heads { c with entryHeader := S.entryHashMapGet p w } w
        refine Outcome.Heads.overlay (c := c) ?_ hread
        cases hheads with
        | request none header state same => exact .request none header state same
        | response some byte state same => exact .response some byte state same
      · rw [if_neg ha, ← hp]
        exact (attemptMemoryRead_heads c w).overlay hread
  · cases hr

theorem connectionUnblockWrite_overlay (h : Overlay c log)
    (hr : connectionUnblockWrite S c w = .ok o) :
    Overlay o.connection (log.after c.state [] (writeResponse S c w) o.result) := by
  unfold connectionUnblockWrite at hr
  split at hr
  · rename_i hs
    refine (attemptMemoryWrite_heads hr).overlay ?_
    rw [h.request (by rw [hs]; rfl), hs]
    rfl
  · cases hr

/-! ### Assertions -/

theorem socketFailure_asserts (h : socketFailure S c w = .error .assertion) : S.Asserts := by
  unfold socketFailure at h
  split at h
  · rename_i fault hfault
    cases h
    split at hfault
    · exact Or.inr ⟨_, _, hfault⟩
    · cases hfault
  · simp only at h
    split at h
    · split at h <;> cases h
    · cases h

theorem connectionTransfer_asserts (legal : c.state.receiving = true ∨ c.state.sending = true)
    (h : connectionTransfer S socket c w = .error .assertion) : S.Asserts := by
  have hcases := connectionTransfer_cases S socket c w
  rw [h] at hcases
  generalize hr : (.error .assertion : Except Fault (Outcome σ)) = r at hcases
  cases hcases with
  | unsupported state =>
    rcases legal with hs | hs
    · cases hs.symm.trans state.1
    · cases hs.symm.trans state.2
  | failed => exact socketFailure_asserts hr.symm
  | idle | received | sent => cases hr

theorem attemptMemoryWrite_asserts (h : attemptMemoryWrite S c w = .error .assertion) : S.Asserts := by
  unfold attemptMemoryWrite at h
  split at h
  · rename_i hcall
    cases h
    exact Or.inl ⟨_, _, _, _, _, hcall⟩
  · cases h
  · cases h
  · cases h
  · cases h

theorem eventReceivedArguments_asserts {t : RequestType} (type : c.requestType = some t)
    (payload : t ≠ .ping) (h : eventReceivedArguments S c w = .error .assertion) : S.Asserts := by
  unfold eventReceivedArguments at h
  rw [type] at h
  cases t with
  | ping => exact absurd rfl payload
  | get | delete =>
    simp only at h
    split at h <;> cases h
  | put => exact attemptMemoryWrite_asserts h

theorem eventReceivedBody_asserts {t : RequestType} {p : Pointer} (type : c.requestType = some t)
    (payload : t ≠ .ping) (entry : c.entryHeader = some p)
    (h : eventReceivedBody S c w = .error .assertion) : S.Asserts := by
  unfold eventReceivedBody at h
  rw [type, entry] at h
  cases t with
  | ping => exact absurd rfl payload
  | get | delete =>
    simp only at h
    split at h
    · rename_i hfree
      cases h
      exact Or.inr ⟨_, _, hfree⟩
    · cases h
  | put =>
    simp only at h
    split at h <;> cases h

theorem connectionEvent_asserts (hc : c.Valid)
    (legal : c.state.receiving = true ∨ c.state.sending = true)
    (h : connectionEvent S c w = .error .assertion) : S.Asserts := by
  obtain ⟨hphase, -⟩ := hc
  cases hphase with
  | receivingHeader state =>
    simp only [connectionEvent, state] at h
    cases h
  | receivingArguments state buffer type payload =>
    simp only [connectionEvent, state] at h
    exact eventReceivedArguments_asserts type payload h
  | receivingBody state buffer type payload window entry =>
    simp only [connectionEvent, state] at h
    exact eventReceivedBody_asserts type payload entry h
  | awaitingWriteUnblock state | awaitingReadUnblock state =>
    rw [state] at legal
    rcases legal with hs | hs <;> cases hs
  | @sendingHeader t state buffer type final =>
    simp only [connectionEvent, state, eventSentHeader_final type final] at h
    cases h
  | sendingValue state buffer type window entry =>
    simp only [connectionEvent, state, eventSentHeader_value type entry] at h
    cases h
  | sendingBody state type entry =>
    simp only [connectionEvent, state, eventSentBody_value type entry] at h
    cases h

theorem connectionProc_asserts (hc : c.Valid)
    (legal : c.state.receiving = true ∨ c.state.sending = true)
    (h : connectionProc S socket c w = .error .assertion) : S.Asserts := by
  cases ht : connectionTransfer S socket c w with
  | error fault =>
    simp only [connectionProc, ht] at h
    cases h
    exact connectionTransfer_asserts legal ht
  | ok o₁ =>
    rw [connectionProc_eq_of_transfer _ _ _ _ ht] at h
    split at h
    · cases h
    · rename_i hsuccess
      have hresult : o₁.result = .success := by simpa using hsuccess
      split at h
      · cases h
      · cases he : connectionEvent S o₁.connection o₁.world with
        | ok o₂ => simp [he, Except.map] at h
        | error fault =>
          simp only [he, Except.map] at h
          cases h
          have hopen : o₁.result ≠ .disconnect := by rw [hresult]; decide
          refine connectionEvent_asserts (connectionTransfer_valid hc ht hopen) ?_ he
          rw [(connectionTransfer_kept ht hopen).1]
          exact legal

theorem connectionUnblockRead_asserts (legal : c.state = .awaitingReadUnblock) :
    connectionUnblockRead S c w ≠ .error .assertion := by
  intro h
  unfold connectionUnblockRead at h
  rw [if_pos legal] at h
  split at h
  · cases h
  · split at h <;> cases h

theorem connectionUnblockWrite_asserts (legal : c.state = .awaitingWriteUnblock)
    (h : connectionUnblockWrite S c w = .error .assertion) : S.Asserts := by
  unfold connectionUnblockWrite at h
  rw [if_pos legal] at h
  exact attemptMemoryWrite_asserts h

/-! ### Runs -/

theorem HeaderRun.overlay (run : HeaderRun S c log) : c.Valid ∧ Overlay c log := by
  induction run with
  | opened fileDescriptor header arguments => exact ⟨connectionInit_valid .., .initRequest _⟩
  | proceeded socket w run legal call open_ ih =>
    exact ⟨connectionProc_valid ih.1 call open_, connectionProc_overlay ih.1 ih.2 call open_⟩
  | unblockedRead w run legal call ih =>
    refine ⟨connectionUnblockRead_valid ih.1 call ?_, connectionUnblockRead_overlay ih.2 call⟩
    rcases connectionUnblockRead_result call with hr | hr <;> rw [hr] <;> decide
  | unblockedWrite w run legal call ih =>
    refine ⟨connectionUnblockWrite_valid ih.1 call ?_, connectionUnblockWrite_overlay ih.2 call⟩
    rcases connectionUnblockWrite_result call with hr | hr <;> rw [hr] <;> decide

/- The type is the fourth byte of the header. -/
theorem requestType_log (h : c.header.read 0 requestHeaderSize = log.request) :
    log.requestType = c.requestType := by
  rw [HeaderLog.requestType, ← h]
  rfl

theorem Overlay.sound (h : Overlay c log) (hc : c.Valid) : HeaderSound c log := by
  obtain ⟨hphase, -⟩ := hc
  constructor
  · intro hs
    have hrequest := h.request hs
    refine ⟨hrequest, ?_⟩
    rw [requestType_log hrequest]
    cases hphase with
    | @receivingArguments t state buffer type payload | @receivingBody t p state buffer type payload =>
      refine ⟨t, type, type, ?_⟩
      rw [state]
      exact decide_eq_true payload
    | awaitingWriteUnblock state type | awaitingReadUnblock state type =>
      refine ⟨_, type, type, ?_⟩
      rw [state]
      rfl
    | receivingHeader state | sendingHeader state | sendingValue state | sendingBody state =>
      rw [state] at hs
      cases hs
  · intro hs
    obtain ⟨t, hlog, hbyte⟩ := h.response hs
    have htype : c.responseType = some t := by
      rw [Connection.responseType, hbyte, ResponseType.ofByte_toByte]
    refine ⟨t, hlog, hbyte, ?_⟩
    cases hphase with
    | sendingHeader state buffer type final =>
      cases htype.symm.trans type
      exact ⟨fun hbody => (by cases state.symm.trans hbody), fun hvalue => absurd hvalue final⟩
    | sendingValue state buffer type window entry =>
      exact ⟨fun hbody => (by cases state.symm.trans hbody), fun _ => by simp [entry]⟩
    | sendingBody state type entry =>
      cases htype.symm.trans type
      exact ⟨fun _ => rfl, fun _ => by simp [entry]⟩
    | receivingHeader state | receivingArguments state | receivingBody state
    | awaitingWriteUnblock state | awaitingReadUnblock state =>
      rw [state] at hs
      cases hs

theorem Connection.Valid.assertFree (hc : c.Valid) : AssertFree S c where
  proc legal _ _ h := connectionProc_asserts hc legal h
  unblockRead legal _ := connectionUnblockRead_asserts legal
  unblockWrite legal _ h := connectionUnblockWrite_asserts legal h

/-- The overlay never confuses the state machine. -/
theorem header_overlay (run : HeaderRun S c log) : HeaderSound c log ∧ AssertFree S c := by
  obtain ⟨hvalid, hoverlay⟩ := run.overlay
  exact ⟨hoverlay.sound hvalid, hvalid.assertFree⟩

end

/-! ### Calls in a row -/

section
variable {σ : Type} {S : Services σ}

/-- The connection and the world after some calls of connection_proc that all pass the test. -/
def proceeded (S : Services σ) (test : Connection → Outcome σ → Bool) :
    List Socket → Connection → World σ → Option (Connection × World σ)
  | [], c, w => some (c, w)
  | socket :: sockets, c, w =>
    match connectionProc S socket c w with
    | .error _ => none
    | .ok o => if test c o then proceeded S test sockets o.connection o.world else none

theorem proceeded_keeps {test : Connection → Outcome σ → Bool} {P : Connection → Prop}
    (hstep : ∀ socket c w o, P c → connectionProc S socket c w = .ok o → test c o = true →
      P o.connection) {sockets : List Socket} {c c' : Connection} {w w' : World σ} (hP : P c)
    (h : proceeded S test sockets c w = some (c', w')) : P c' := by
  induction sockets generalizing c w with
  | nil =>
    cases h
    exact hP
  | cons socket sockets ih =>
    rw [proceeded] at h
    split at h
    · cases h
    · rename_i o call
      split at h
      · rename_i htest
        exact ih (hstep socket c w o hP call htest) h
      · cases h

end

/-- `PUT a = b`, and `GET a` up to the header of the answer. -/
def storesAndReads : List Socket :=
  [⟨[1, 0, 1, 2], false, 0, false⟩, ⟨[1, 0, 1, 0, 0, 0], false, 0, false⟩, ⟨[97, 98], false, 0, false⟩,
    ⟨[], false, 1, false⟩, ⟨[1, 0, 1, 1], false, 0, false⟩, ⟨[1, 0], false, 0, false⟩,
    ⟨[97], false, 0, false⟩]

/- The header holds the answer, which is then sent, value and all. -/
theorem header_overlay_get : ∃ c log c' log', HeaderRun serverServices c log ∧
    c.state = .sendingHeader ∧ HeaderSound c log ∧ AssertFree serverServices c ∧
    HeaderRun serverServices c' log' ∧ c'.state = .sendingBody ∧ HeaderSound c' log' ∧
      AssertFree serverServices c' := by
  let w := (cacheServerOpen ByteArea.decodeLE 64 fun _ _ => 0).world
  let test (c : Connection) (o : Outcome System) : Bool :=
    (c.state.receiving || c.state.sending) && o.result ≠ .disconnect
  have hstep : ∀ socket c w o, (∃ log, HeaderRun serverServices c log) →
      connectionProc serverServices socket c w = .ok o → test c o = true →
        ∃ log, HeaderRun serverServices o.connection log := by
    rintro socket c w o ⟨log, run⟩ call htest
    simp only [test, Bool.and_eq_true, Bool.or_eq_true, decide_eq_true_eq] at htest
    exact ⟨_, .proceeded socket w run htest.1 call htest.2⟩
  have hopened : ∃ log, HeaderRun serverServices (connectionInit 5 (fun _ => 0) fun _ => 0) log :=
    ⟨_, .opened 5 _ _⟩
  have hruns : (∃ r ∈ proceeded serverServices test storesAndReads
        (connectionInit 5 (fun _ => 0) fun _ => 0) w, r.1.state = .sendingHeader) ∧
      ∃ r ∈ proceeded serverServices test (storesAndReads ++ [⟨[], false, 5, false⟩])
        (connectionInit 5 (fun _ => 0) fun _ => 0) w, r.1.state = .sendingBody := by
    decide +kernel
  obtain ⟨⟨⟨c, w₁⟩, hc, hstate⟩, ⟨c', w₂⟩, hc', hstate'⟩ := hruns
  obtain ⟨log, run⟩ := proceeded_keeps hstep hopened hc
  obtain ⟨log', run'⟩ := proceeded_keeps hstep hopened hc'
  exact ⟨c, log, c', log', run, hstate, (header_overlay run).1, (header_overlay run).2, run', hstate',
    header_overlay run'⟩

end CacheServer
