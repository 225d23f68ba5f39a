import CacheServer.Sharing.Ledger
import CacheServer.Wire.Client

/-!
# Answers to a GET

From the lookup on, what a connection has sent of the answer and what it has
still to send are the answer that the ledger holds. Every call of connection.c
keeps this, as long as the entry that the connection reads stays as it is.
-/

namespace CacheServer
open EntryHeader

/-- The connection is to send a value. -/
def Connection.SendsValue (c : Connection) : Prop :=
  c.state = .sendingBody ∨ c.state = .sendingHeader ∧ c.responseType = some .value

/-- The key of a GET has been looked up, and the answer not sent. -/
def Connection.Answering (c : Connection) : Prop :=
  c.state = .awaitingReadUnblock ∨ c.SendsValue ∨
    c.state = .sendingHeader ∧ c.responseType = some .notFound

/-- The entry that the answer is read from. -/
def Connection.Reads (c : Connection) (p : Pointer) : Prop :=
  c.entryHeader = some p ∧ (c.state = .awaitingReadUnblock ∨ c.SendsValue)

inductive Serving (c : Connection) (m : Memory) : Option Reading → Prop
  | idle (other : ¬ c.Answering) : Serving c m none
  | answered {r : Reading} (state : c.state = .receivingHeader) (sent : r.sent = r.response) :
      Serving c m (some r)
  | awaiting {r : Reading} {p : Pointer} (state : c.state = .awaitingReadUnblock)
      (entry : c.entryHeader = some p) (key : key m p = r.key) (sent : r.sent = []) :
      Serving c m (some r)
  | notFound {r : Reading} (state : c.state = .sendingHeader) (type : c.responseType = some .notFound)
      (buffer : c.buffer = .header)
      (sent : r.sent ++ c.header.read c.bufferIndex c.remainingBytes = r.response) :
      Serving c m (some r)
  | header {r : Reading} {p : Pointer} (state : c.state = .sendingHeader)
      (type : c.responseType = some .value) (buffer : c.buffer = .header)
      (entry : c.entryHeader = some p) (value : r.value = some (value m p))
      (sent : r.sent ++ (c.header.read c.bufferIndex c.remainingBytes ++ EntryHeader.value m p) =
        r.response) : Serving c m (some r)
  | body {r : Reading} {p : Pointer} (state : c.state = .sendingBody) (entry : c.entryHeader = some p)
      (buffer : c.buffer = .memory (p.add (entryHeaderSize + keySize m p)))
      (window : c.bufferIndex + c.remainingBytes = valueSize m p)
      (value : r.value = some (EntryHeader.value m p))
      (sent : r.sent ++ (EntryHeader.value m p).drop c.bufferIndex = r.response) :
      Serving c m (some r)

section
variable {history : List (Nat × Event)} {i : Nat} {c : Connection} {w : World System}
  {o : Outcome System} {socket : Socket} {m m' : Memory} {p : Pointer} {reading : Option Reading}
  {r : Reading} {es : List Slot} {H : Pointer → Nat} {F : Slot → Prop}

theorem Unchanged.setLocks (m : Memory) (p : Pointer) (n : Nat) : Unchanged p m (setLocks m p n) := by
  obtain ⟨hkey, hsize, hvalue⟩ := value_setLocks m p n
  refine ⟨hkey, hsize, ?_, hvalue⟩
  rw [EntryHeader.key, EntryHeader.key, hkey]
  refine Memory.read_congr fun a h1 _ => store_outside m p 14 2 n (Or.inr (Or.inr ?_))
  exact h1

theorem Unchanged.releaseLock (m : Memory) (p : Pointer) :
    Unchanged p m (entryHeaderReleaseLock m p).2 := by
  rw [releaseLock_memory]
  exact .setLocks ..

/-! ### What a reading says -/

theorem Serving.not_answering (h : Serving c m none) : ¬ c.Answering := by
  cases h with
  | idle other => exact other

theorem Serving.prefix (h : Serving c m (some r)) : r.sent <+: r.response := by
  cases h with
  | answered state sent => exact ⟨[], by rw [List.append_nil, sent]⟩
  | awaiting state entry key sent => exact ⟨r.response, by rw [sent, List.nil_append]⟩
  | notFound state type buffer sent => exact ⟨_, sent⟩
  | header state type buffer entry value sent => exact ⟨_, sent⟩
  | body state entry buffer window value sent => exact ⟨_, sent⟩

theorem Serving.congr (h : Serving c m reading) (same : ∀ p, c.Reads p → Unchanged p m m') :
    Serving c m' reading := by
  cases h with
  | idle other => exact .idle other
  | answered state sent => exact .answered state sent
  | notFound state type buffer sent => exact .notFound state type buffer sent
  | @awaiting r p state entry key sent =>
    have hsame := same p ⟨entry, Or.inl state⟩
    exact .awaiting state entry (hsame.key.trans key) sent
  | @header r p state type buffer entry value sent =>
    have hsame := same p ⟨entry, Or.inr (Or.inr ⟨state, type⟩)⟩
    refine .header state type buffer entry ?_ ?_
    · rw [hsame.value]
      exact value
    · rw [hsame.value]
      exact sent
  | @body r p state entry buffer window value sent =>
    have hsame := same p ⟨entry, Or.inr (Or.inl state)⟩
    refine .body state entry ?_ ?_ ?_ ?_
    · rw [hsame.keySize]
      exact buffer
    · rw [hsame.valueSize]
      exact window
    · rw [hsame.value]
      exact value
    · rw [hsame.value]
      exact sent

/- Neither the flags nor the event matter. -/
theorem Serving.flagged (h : Serving c m reading) (flags : ConnectionFlags)
    (event : EntryHeaderLockEvent) :
    Serving { c with flags := flags, lockReleaseEvent := event } m reading := by
  cases h with
  | idle other => exact .idle other
  | answered state sent => exact .answered state sent
  | awaiting state entry key sent => exact .awaiting state entry key sent
  | notFound state type buffer sent => exact .notFound state type buffer sent
  | header state type buffer entry value sent => exact .header state type buffer entry value sent
  | body state entry buffer window value sent => exact .body state entry buffer window value sent

/-! ### Transfers -/

theorem ledger_events (events : List Event) : ledger (extend history i events) =
    events.foldl (fun l event => l.next (i, event)) (ledger history) := by
  simp [ledger, extend, List.foldl_map]

/- What is left of the value is what `send` is handed. -/
theorem drop_value (hsize : c.bufferIndex + c.remainingBytes = valueSize w.memory p)
    (hbuffer : c.buffer = .memory (p.add (entryHeaderSize + keySize w.memory p))) :
    (value w.memory p).drop c.bufferIndex = pendingBytes c w := by
  have hlength : (w.memory.read (p.add (entryHeaderSize + keySize w.memory p)) c.bufferIndex).length =
      c.bufferIndex := ByteArea.read_length ..
  rw [value, ← hsize, Memory.read_add, List.drop_left' hlength, pendingBytes, hbuffer]

theorem pendingBytes_sent {bytes : List UInt8} {room : Nat} (h : bytes = (pendingBytes c w).take room) :
    pendingBytes c w = bytes ++ pendingBytes (advance c bytes.length) w := by
  unfold pendingBytes at h ⊢
  cases hb : c.buffer with
  | header =>
    simp only [hb] at h
    simp only [advance, hb]
    exact ByteArea.read_of_take h
  | arguments =>
    simp only [hb] at h
    simp only [advance, hb]
    exact ByteArea.read_of_take h
  | memory q =>
    simp only [hb] at h
    have hread := ByteArea.read_of_take h
    rw [Pointer.add] at hread
    simp only [advance, hb]
    rw [← Pointer.add_add]
    exact hread

theorem header_read {bytes : List UInt8}
    (h : pendingBytes c w = bytes ++ pendingBytes (advance c bytes.length) w)
    (buffer : c.buffer = .header) : c.header.read c.bufferIndex c.remainingBytes =
      bytes ++ (advance c bytes.length).header.read (advance c bytes.length).bufferIndex
        (advance c bytes.length).remainingBytes := by
  simpa only [pendingBytes, advance, buffer] using h

theorem not_answering_of_receiving (h : c.state.receiving = true) : ¬ c.Answering := by
  rintro (hs | (hs | ⟨hs, -⟩) | ⟨hs, -⟩) <;> rw [hs] at h <;> cases h

theorem Serving.sent_bytes {bytes : List UInt8} {room : Nat} (h : Serving c w.memory reading)
    (state : c.state.sending = true) (hbytes : bytes = (pendingBytes c w).take room)
    (hle : bytes.length ≤ c.remainingBytes) :
    Serving (advance c bytes.length) w.memory
      (reading.map fun r => { r with sent := r.sent ++ bytes }) := by
  have hpending := pendingBytes_sent hbytes
  cases h with
  | idle other => exact .idle other
  | answered hs | awaiting hs =>
    rw [hs] at state
    cases state
  | notFound hs type buffer sent =>
    rw [header_read hpending buffer, ← List.append_assoc] at sent
    exact .notFound hs type buffer sent
  | header hs type buffer entry value sent =>
    rw [header_read hpending buffer, List.append_assoc, ← List.append_assoc] at sent
    exact .header hs type buffer entry value sent
  | @body r p hs entry buffer window value sent =>
    have hwindow : (advance c bytes.length).bufferIndex + (advance c bytes.length).remainingBytes =
        valueSize w.memory p := by
      simp only [advance]
      omega
    refine .body hs entry buffer hwindow value ?_
    rw [drop_value window buffer, hpending] at sent
    rw [drop_value hwindow buffer, List.append_assoc]
    exact sent

theorem socketFailure_serving (hc : c.Valid) (h : Serving c w.memory ((ledger history).reading i))
    (hf : socketFailure serverServices c w = .ok o) :
    Serving o.connection o.world.memory ((ledger (extend history i o.events)).reading i) := by
  unfold socketFailure at hf
  cases ha : c.flags.allocatedBuffer with
  | true =>
    rw [ha, if_pos rfl, freeKey_allocated hc ha] at hf
    cases hf
  | false =>
    simp only [ha, Bool.false_eq_true, if_false] at hf
    cases hl : c.flags.lockAcquired with
    | true =>
      obtain ⟨-, p, hp⟩ := hc.sending_of_lock hl
      have hkept := h.flagged c.flags (entryHeaderReleaseLock w.memory p).1
      rw [hl, if_pos rfl, hp] at hf
      rw [hp] at hkept
      cases hf
      rw [List.nil_append, ledger_extend]
      refine hkept.congr fun q hq => ?_
      cases hq.1
      exact .releaseLock ..
    | false =>
      rw [hl] at hf
      cases hf
      rw [extend_nil]
      exact h

/-- A transfer goes on with the answer, or receives the next request. -/
theorem connectionTransfer_serving (hc : c.Valid) (h : Serving c w.memory ((ledger history).reading i))
    (ht : connectionTransfer serverServices socket c w = .ok o) :
    Serving o.connection o.world.memory ((ledger (extend history i o.events)).reading i) ∧
      (c.state.receiving = true → o.result = .success →
        (ledger (extend history i o.events)).reading i = none) := by
  have hreturns := connectionTransfer_returns ht
  cases hreturns with
  | idle =>
    rw [extend_nil]
    exact ⟨h, fun _ hsuccess => by cases hsuccess⟩
  | failed _ failure closed =>
    refine ⟨?_, fun _ hsuccess => ?_⟩
    · exact socketFailure_serving hc h failure
    · cases closed.symm.trans hsuccess
  | received bytes state =>
    have hnone : (ledger (extend history i [.received bytes])).reading i = none := by
      rw [ledger_extend]
      exact Function.update_self ..
    refine ⟨?_, fun _ _ => hnone⟩
    rw [hnone]
    refine .idle (not_answering_of_receiving ?_)
    show (storeReceived c w bytes).1.state.receiving = true
    rw [storeReceived_state]
    exact state
  | sent bytes state some le front =>
    refine ⟨?_, fun hreceiving => ?_⟩
    · rw [ledger_extend]
      have hread : ((ledger history).next (i, .sent bytes)).reading i =
          ((ledger history).reading i).map fun r => { r with sent := r.sent ++ bytes } :=
        Function.update_self ..
      rw [hread]
      exact h.sent_bytes state front le
    · cases hs : c.state <;> simp [ConnectionState.receiving, ConnectionState.sending, hs] at hreceiving state

/-! ### Other requests -/

def Event.isGet : Event → Bool
  | .executed ⟨.get, _, _⟩ => true
  | _ => false

/-- No GET is executed, and none answered. -/
structure Outcome.Unasked (o : Outcome System) : Prop where
  other : ¬ o.connection.Answering
  events : ∀ event ∈ o.events, event.isGet = false

theorem reading_none {events : List Event} (h : (ledger history).reading i = none)
    (hevents : ∀ event ∈ events, event.isGet = false) :
    (ledger (extend history i events)).reading i = none := by
  induction events generalizing history with
  | nil =>
    rw [extend_nil]
    exact h
  | cons event events ih =>
    rw [← List.singleton_append, extend_append]
    refine ih ?_ fun x hx => hevents x (List.mem_cons_of_mem _ hx)
    rw [ledger_extend]
    have hevent := hevents event (List.mem_cons_self ..)
    cases event with
    | sent | lookedUp =>
      refine (Function.update_self ..).trans ?_
      rw [h]
      rfl
    | received => exact Function.update_self ..
    | executed request =>
      obtain ⟨type, key, value⟩ := request
      cases type with
      | get => cases hevent
      | put | delete | ping => exact h
    | allocated | stored | malloced | freed | released => exact h

theorem Outcome.Unasked.serving (ho : o.Unasked) (h : (ledger history).reading i = none) :
    Serving o.connection m ((ledger (extend history i o.events)).reading i) := by
  rw [reading_none h ho.events]
  exact .idle ho.other

theorem sendHeader_other {t : ResponseType} (hvalue : t ≠ .value) (hnotFound : t ≠ .notFound) :
    ¬ (sendHeader c t).Answering := by
  have htype := responseType_sendHeader c t
  rintro (hs | (hs | ⟨-, ht⟩) | ⟨-, ht⟩)
  · cases hs
  · cases hs
  · exact hvalue (Option.some.inj (htype.symm.trans ht))
  · exact hnotFound (Option.some.inj (htype.symm.trans ht))

theorem eventReceivedHeader_unasked (c : Connection) (w : World System) :
    (eventReceivedHeader c w).Unasked := by
  unfold eventReceivedHeader
  split
  · exact ⟨sendHeader_other (by decide) (by decide), by simp⟩
  · simp only
    split
    · exact ⟨sendHeader_other (by decide) (by decide), by simp [Event.isGet]⟩
    · exact ⟨not_answering_of_receiving rfl, by simp⟩
    · exact ⟨not_answering_of_receiving rfl, by simp⟩
    · exact ⟨not_answering_of_receiving rfl, by simp⟩
    · exact ⟨sendHeader_other (by decide) (by decide), by simp⟩

theorem attemptMemoryWrite_unasked (h : attemptMemoryWrite serverServices c w = .ok o) : o.Unasked := by
  unfold attemptMemoryWrite at h
  split at h <;> cases h
  · exact ⟨sendHeader_other (by decide) (by decide), by simp⟩
  · refine ⟨?_, by simp⟩
    rintro (hs | (hs | ⟨hs, -⟩) | ⟨hs, -⟩) <;> cases hs
  · exact ⟨not_answering_of_receiving rfl, by simp [Event.isGet]⟩

theorem eventReceivedArguments_unasked (h : eventReceivedArguments serverServices c w = .ok o) :
    o.Unasked := by
  unfold eventReceivedArguments at h
  split at h
  · split at h <;> cases h
    · exact ⟨sendHeader_other (by decide) (by decide), by simp⟩
    · exact ⟨not_answering_of_receiving rfl, by simp [Event.isGet]⟩
  · split at h <;> cases h
    · exact ⟨sendHeader_other (by decide) (by decide), by simp⟩
    · exact ⟨not_answering_of_receiving rfl, by simp [Event.isGet]⟩
  · exact attemptMemoryWrite_unasked h
  · cases h

/-! ### GETs -/

/-- A value, NOT_FOUND, or a wait, by what the lookup has found. -/
theorem attemptMemoryRead_serving (hvalue : c.entryHeader.map (value w.memory) = r.value)
    (hkey : ∀ p, c.entryHeader = some p → key w.memory p = r.key) (hsent : r.sent = []) :
    Serving (attemptMemoryRead c w).connection (attemptMemoryRead c w).world.memory (some r) := by
  cases hp : c.entryHeader with
  | none =>
    simp only [attemptMemoryRead, hp]
    refine .notFound rfl (responseType_sendHeader c .notFound) rfl ?_
    rw [hp, Option.map_none] at hvalue
    rw [hsent, Reading.response, ← hvalue]
    exact ByteArea.read_write_same c.header 0 [ResponseType.notFound.toByte]
  | some p =>
    rw [hp, Option.map_some] at hvalue
    simp only [attemptMemoryRead, hp, entryHeaderAcquireLock]
    by_cases hl : locks w.memory p = entryHeaderLockCapacity
    · simp only [hl, if_true]
      exact .awaiting rfl rfl (hkey p hp) hsent
    · simp only [hl, if_false]
      obtain ⟨-, hsize, hsame⟩ := value_setLocks w.memory p (locks w.memory p + 1)
      have hbyte : ∀ (h : ByteArea) (v : Nat), h.storeLE 1 4 v 0 = h 0 := fun h v =>
        ByteArea.storeLE_outside h 1 4 v (Or.inl Nat.zero_lt_one)
      refine .header rfl ?_ rfl rfl (by rw [hsame]; exact hvalue.symm) ?_
      · simp only [Connection.responseType, hbyte]
        exact responseType_sendHeader c .value
      · simp only [hsame, hsize]
        have hread := read_valueHeader c.header (valueSize w.memory p)
        rw [hsent, Reading.response, ← hvalue]
        simp only [valueResponse, value_length]
        rw [List.nil_append, ← List.cons_append, ← hread]
        rfl

/- The next request, or the end of the connection. -/
theorem finishRequest_serving (h : Serving c m reading)
    (done : ∀ r, reading = some r → r.sent = r.response) (w : World System) :
    Serving (finishRequest c w).connection m reading := by
  unfold finishRequest
  split
  · cases reading with
    | none => exact .idle (not_answering_of_receiving rfl)
    | some r => exact .answered rfl (done r rfl)
  · exact h

theorem finishRequest_world (c : Connection) (w : World System) : (finishRequest c w).world = w := by
  unfold finishRequest
  split <;> rfl

theorem ledger_lookedUp (h : (ledger history).reading i = some r) (k : List UInt8)
    (found : Option Pointer) : (ledger (extend history i [.lookedUp k found])).reading i =
      some { r with value := (ledger history).stored r.key } := by
  rw [ledger_extend]
  refine (Function.update_self ..).trans ?_
  rw [h]
  rfl

theorem ledger_get {request : Request} (type : request.type = .get) (found : Option Pointer)
    (block : Buffer) : (ledger (extend history i
      [.executed request, .lookedUp request.key found, .freed block])).reading i =
        some ⟨request.key, (ledger history).stored request.key, []⟩ := by
  obtain ⟨_, key, value⟩ := request
  cases type
  rw [ledger_events]
  simp [Ledger.next, Ledger.read]

/-- The key of a GET is complete: it is looked up. -/
theorem eventReceivedBody_serving (hp : c.Placed) (state : c.state = .receivingBody)
    (hkeyed : c.Keyed w history i)
    (hpub : Published (ledger history).stored w.system.hashmap w.memory)
    (hd : ∀ p, c.entryHeader = some p → Distinguished w.system.hashmap w.memory p)
    (hnone : (ledger history).reading i = none) (he : eventReceivedBody serverServices c w = .ok o) :
    Serving o.connection o.world.memory ((ledger (extend history i o.events)).reading i) := by
  unfold eventReceivedBody at he
  split at he
  · rename_i p type entry
    simp only at he
    split at he
    · cases he
    · rename_i w' hfree
      cases he
      obtain ⟨hvalue, hfound⟩ := hpub.get (hd p entry)
      rw [hkeyed.key_eq hp state type entry (by decide)] at hvalue hfound
      have hmemory := (freeKey_frame hfree).1
      simp only [Outcome.after, attemptMemoryRead_events, List.append_nil]
      rw [ledger_get rfl]
      refine attemptMemoryRead_serving ?_ ?_ rfl
      · rw [hmemory]
        exact hvalue
      · rw [hmemory]
        exact hfound
  · simp only at he
    split at he <;> cases he
    refine Outcome.Unasked.serving ⟨sendHeader_other (by decide) (by decide), ?_⟩ hnone
    simp [Event.isGet, requestOf]
  · simp only at he
    split at he <;> cases he
    · refine Outcome.Unasked.serving ⟨sendHeader_other (by decide) (by decide), ?_⟩ hnone
      simp [Event.isGet, requestOf]
    · refine Outcome.Unasked.serving ⟨sendHeader_other (by decide) (by decide), ?_⟩ hnone
      simp [Event.isGet, requestOf]
  · cases he
  · cases he
  · cases he

/-! ### Calls -/

theorem Serving.header_done (h : Serving c m (some r)) (state : c.state = .sendingHeader)
    (type : c.responseType ≠ some .value) (hzero : c.remainingBytes = 0) : r.sent = r.response := by
  cases h with
  | answered hs | awaiting hs | body hs => cases state.symm.trans hs
  | header hs ht => exact absurd ht type
  | notFound hs ht buffer sent =>
    rw [hzero] at sent
    exact (List.append_nil _).symm.trans sent

theorem Serving.body_done (h : Serving c m (some r)) (state : c.state = .sendingBody)
    (hzero : c.remainingBytes = 0) : r.sent = r.response := by
  cases h with
  | answered hs | awaiting hs | header hs | notFound hs => cases state.symm.trans hs
  | @body _ p hs entry buffer window value sent =>
    rw [List.drop_eq_nil_of_le (by rw [value_length]; omega), List.append_nil] at sent
    exact sent

/-- The whole value is sent, as the header has announced it. -/
theorem Serving.value_sent (h : Serving c m reading) (state : c.state = .sendingBody)
    (hzero : c.remainingBytes = 0) : ∃ r v, reading = some r ∧ r.value = some v ∧
      v.length < 2 ^ 32 ∧ r.sent = valueResponse v := by
  cases h with
  | idle other => exact absurd (Or.inr (Or.inl (Or.inl state))) other
  | answered hs | awaiting hs | header hs | notFound hs => cases state.symm.trans hs
  | @body r p hs entry buffer window value sent =>
    refine ⟨r, EntryHeader.value m p, rfl, value, ?_, ?_⟩
    · rw [value_length]
      exact valueSize_lt m p
    · have hdone := (Serving.body hs entry buffer window value sent).body_done state hzero
      rw [Reading.response, value] at hdone
      exact hdone

/-- The header of a value is sent, the value follows. -/
theorem Serving.begin_body (h : Serving c m reading) (state : c.state = .sendingHeader)
    (type : c.responseType = some .value) (entry : c.entryHeader = some p) (hzero : c.remainingBytes = 0) :
    Serving { c with
      buffer := .memory (p.add (entryHeaderSize + keySize m p))
      remainingBytes := valueSize m p
      bufferIndex := 0
      state := .sendingBody } m reading := by
  cases h with
  | idle other => exact absurd (Or.inr (Or.inl (Or.inr ⟨state, type⟩))) other
  | answered hs | awaiting hs | body hs => cases state.symm.trans hs
  | notFound hs ht => cases type.symm.trans ht
  | @header r q hs ht buffer hq value sent =>
    cases entry.symm.trans hq
    rw [hzero] at sent
    exact .body rfl entry rfl (Nat.zero_add _) value sent

theorem connectionEvent_serving (hc : c.Valid) (hp : c.Placed) (hzero : c.remainingBytes = 0)
    (hkeyed : c.Keyed w history i)
    (hpub : Published (ledger history).stored w.system.hashmap w.memory)
    (hd : c.state = .receivingBody → ∀ p, c.entryHeader = some p →
      Distinguished w.system.hashmap w.memory p)
    (h : Serving c w.memory ((ledger history).reading i))
    (hnone : c.state.receiving = true → (ledger history).reading i = none)
    (he : connectionEvent serverServices c w = .ok o) :
    Serving o.connection o.world.memory ((ledger (extend history i o.events)).reading i) := by
  obtain ⟨hphase, -⟩ := hc
  cases hphase with
  | receivingHeader state =>
    simp only [connectionEvent, state] at he
    cases he
    exact (eventReceivedHeader_unasked c w).serving (hnone (by rw [state]; rfl))
  | receivingArguments state =>
    simp only [connectionEvent, state] at he
    exact (eventReceivedArguments_unasked he).serving (hnone (by rw [state]; rfl))
  | receivingBody state =>
    simp only [connectionEvent, state] at he
    exact eventReceivedBody_serving hp state hkeyed hpub (hd state) (hnone (by rw [state]; rfl)) he
  | awaitingWriteUnblock state | awaitingReadUnblock state =>
    simp only [connectionEvent, state] at he
    cases he
  | @sendingHeader t state buffer type final =>
    simp only [connectionEvent, state] at he
    rw [eventSentHeader_final type final] at he
    cases he
    have hkept : Serving (if t.endsConnection then { c with
        flags := { c.flags with keepAlive := false } } else c) w.memory ((ledger history).reading i) := by
      split
      · exact h.flagged { c.flags with keepAlive := false } c.lockReleaseEvent
      · exact h
    rw [finishRequest_events, extend_nil, finishRequest_world]
    refine finishRequest_serving hkept (fun r hr => ?_) w
    rw [hr] at h
    refine h.header_done state (fun hvalue => ?_) hzero
    cases type.symm.trans hvalue
    exact final rfl
  | @sendingValue p state buffer type window entry =>
    simp only [connectionEvent, state, eventSentHeader_value type entry] at he
    cases he
    rw [extend_nil]
    exact h.begin_body state type entry hzero
  | @sendingBody p state type entry =>
    simp only [connectionEvent, state] at he
    rw [eventSentBody_value type entry] at he
    cases he
    have hkept : Serving { c with
        lockReleaseEvent := (entryHeaderReleaseLock w.memory p).1
        flags := { c.flags with lockAcquired := false } }
        (entryHeaderReleaseLock w.memory p).2 ((ledger history).reading i) := by
      refine (h.flagged { c.flags with lockAcquired := false } _).congr fun q hq => ?_
      cases entry.symm.trans hq.1
      exact .releaseLock ..
    simp only [Outcome.after, finishRequest_events, List.append_nil, finishRequest_world]
    rw [ledger_extend]
    refine finishRequest_serving hkept (fun r hr => ?_) _
    rw [hr] at h
    exact h.body_done state hzero

/-- A read is retried: the key is looked up once more. -/
theorem connectionUnblockRead_serving
    (hpub : Published (ledger history).stored w.system.hashmap w.memory)
    (hd : ∀ p, c.entryHeader = some p →
      Distinguished w.system.hashmap w.memory p ∧ active w.memory p = 0)
    (h : Serving c w.memory ((ledger history).reading i))
    (he : connectionUnblockRead serverServices c w = .ok o) :
    Serving o.connection o.world.memory ((ledger (extend history i o.events)).reading i) := by
  unfold connectionUnblockRead at he
  split at he
  · rename_i state
    split at he
    · cases he
    · rename_i p entry
      obtain ⟨hdist, hactive⟩ := hd p entry
      rw [if_pos hactive] at he
      cases he
      obtain ⟨hvalue, hfound⟩ := hpub.get hdist
      generalize hreading : (ledger history).reading i = reading at h
      cases h with
      | idle other => exact absurd (Or.inl state) other
      | answered hs | notFound hs | header hs | body hs => cases state.symm.trans hs
      | @awaiting r q hs hq key sent =>
        cases entry.symm.trans hq
        rw [key] at hvalue hfound
        simp only [Outcome.after, attemptMemoryRead_events, List.append_nil]
        rw [ledger_lookedUp hreading]
        exact attemptMemoryRead_serving hvalue hfound sent
  · cases he

theorem connectionEvent_value (hc : c.Valid) (state : c.state = .sendingBody)
    (h : connectionEvent serverServices c w = .ok o) : ∃ p event, o.events = [.released p event] := by
  obtain ⟨p, type, entry⟩ := hc.sendingBody state
  simp only [connectionEvent, state] at h
  rw [eventSentBody_value type entry] at h
  cases h
  refine ⟨p, (entryHeaderReleaseLock w.memory p).1, ?_⟩
  simp only [Outcome.after, finishRequest_events, List.append_nil]

/-- A call that comes to the end of the value has sent all of it. -/
theorem ConnectionCall.value_sent {call : ConnectionCall} {c' : Connection} {w' : World System}
    (hc : c.Valid) (h : Serving c w.memory ((ledger history).reading i)) (state : c.state = .sendingBody)
    (hreach : call.reached c w = some (c', w')) (hrun : call.run c w = .ok o) :
    ∃ r v, (ledger (extend history i o.events)).reading i = some r ∧ r.value = some v ∧
      v.length < 2 ^ 32 ∧ r.sent = valueResponse v := by
  cases call with
  | unblockRead =>
    simp only [run, connectionUnblockRead, state] at hrun
    cases hrun
  | unblockWrite =>
    simp only [run, connectionUnblockWrite, state] at hrun
    cases hrun
  | proc socket =>
    obtain ⟨events, o₂, transfer, complete, hevent, rfl⟩ := reached_run hreach hrun
    obtain ⟨hserving, -⟩ := connectionTransfer_serving hc h transfer
    have hvalid := connectionTransfer_valid hc transfer (by simp)
    have hstate := (reached_state hreach).trans state
    obtain ⟨p, event, hevents⟩ := connectionEvent_value hvalid hstate hevent
    show ∃ r v, (ledger (extend history i (events ++ o₂.events))).reading i = some r ∧ _
    rw [extend_append, hevents, ledger_extend]
    exact hserving.value_sent hstate complete

theorem ConnectionCall.serving {call : ConnectionCall} (hc : c.Valid) (hp : c.Placed)
    (hb : Base w es H F c.lock c.region) (hkeyed : c.Keyed w history i)
    (hd : ∀ r ∈ call.reached c w, r.1.LooksUp → ∀ p, r.1.entryHeader = some p →
      Distinguished r.2.system.hashmap r.2.memory p)
    (hactive : c.state = .awaitingReadUnblock → ∀ p, c.entryHeader = some p → active w.memory p = 0)
    (hitems : ∀ item ∈ w.system.hashmap.items, ∃ e ∈ es, e.pointer = item.2 ∧ c.region ≠ some e)
    (hpub : Published (ledger history).stored w.system.hashmap w.memory)
    (h : Serving c w.memory ((ledger history).reading i)) (hrun : call.run c w = .ok o) :
    Serving o.connection o.world.memory ((ledger (extend history i o.events)).reading i) := by
  have hreturns := call.returns hrun
  cases hreturns with
  | transferred socket transfer => exact (connectionTransfer_serving hc h transfer).1
  | @completed o₁ o₂ socket transfer success complete event =>
    have hopen : o₁.result ≠ .disconnect := by rw [success]; decide
    have hreach := ConnectionCall.reached_of_transfer transfer success complete
    obtain ⟨hstate, -⟩ := connectionTransfer_kept transfer hopen
    obtain ⟨hserving, hnone⟩ := connectionTransfer_serving hc h transfer
    show Serving _ _ ((ledger (extend history i (o₁.events ++ o₂.events))).reading i)
    rw [extend_append]
    refine connectionEvent_serving (connectionTransfer_valid hc transfer hopen)
      (connectionTransfer_placed hc hp transfer hopen) complete
      (connectionTransfer_keyed hc hp hkeyed transfer hopen)
      ((connectionTransfer_effect hc hp transfer).published hb hitems hpub)
      (fun hs => hd _ hreach (Or.inl hs)) hserving (fun hr => hnone ?_ success) event
    rw [← hstate]
    exact hr
  | retriedRead retry =>
    have hs : c.state = .awaitingReadUnblock := by
      unfold connectionUnblockRead at retry
      split at retry
      · rename_i hs
        exact hs
      · cases retry
    exact connectionUnblockRead_serving hpub
      (fun p hq => ⟨hd _ rfl (Or.inr hs) p hq, hactive hs p hq⟩) h retry
  | retriedWrite retry =>
    unfold connectionUnblockWrite at retry
    split at retry
    · rename_i state
      refine (attemptMemoryWrite_unasked retry).serving ?_
      generalize (ledger history).reading i = reading at h
      cases h with
      | idle other => rfl
      | answered hs | awaiting hs | notFound hs | header hs | body hs => cases state.symm.trans hs
    · cases retry

end

end CacheServer
