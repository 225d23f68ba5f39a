import CacheServer.Sharing.KeyBlocks
import CacheServer.Wire.LockEvents

/-!
# Requests are what was received

Key and value of a request that is executed, and of an entry that is put into
the index, are the bytes that its connection has received since it was given the
entry or key block.
-/

namespace CacheServer
open EntryHeader

/-- Key and value of a request. -/
def Event.payload : Event → Option (List UInt8)
  | .executed ⟨.ping, _, _⟩ => none
  | .executed ⟨_, key, value⟩ | .stored key value _ => some (key ++ value)
  | _ => none

/-- Nothing is received, and no buffer given. -/
def Event.still : Event → Bool
  | .received _ | .allocated _ | .malloced _ => false
  | _ => true

def FromWire (history : List (Nat × Event)) : Prop :=
  ∀ i before event later bytes, history = before ++ (i, event) :: later →
    event.payload = some bytes → ∃ p, receipt before i = some ⟨p, bytes⟩

/-- A request for the bytes of the body, by the events of one call. -/
def Executes (events : List Event) (bytes : List UInt8) : Prop :=
  ∀ event ∈ events, event.still ∧ (event.payload = none ∨ event.payload = some bytes)

section
variable {history : List (Nat × Event)} {events : List Event} {bytes : List UInt8} {i n : Nat}
  {c : Connection} {w : World System} {o : Outcome System} {socket : Socket} {p : Pointer}
  {t : RequestType} {F : Slot → Prop}

theorem FromWire.nil : FromWire [] := by
  intro i before event later bytes h
  exact absurd h.symm (by simp)

theorem FromWire.extend_one {event : Event} (h : FromWire history)
    (hnew : ∀ bytes, event.payload = some bytes → ∃ p, receipt history i = some ⟨p, bytes⟩) :
    FromWire (extend history i [event]) := by
  intro j before event' later bytes heq hpayload
  rcases List.eq_nil_or_concat later with rfl | ⟨later, last, rfl⟩
  · obtain ⟨hbefore, hlast⟩ := List.append_inj' heq rfl
    cases hlast
    rw [← hbefore]
    exact hnew bytes hpayload
  · rw [List.concat_eq_append, ← List.cons_append, ← List.append_assoc] at heq
    obtain ⟨hbefore, -⟩ := List.append_inj' heq rfl
    exact h j before event' later bytes hbefore hpayload

theorem receipt_still {event : Event} (h : event.still) :
    receipt (extend history i [event]) i = receipt history i := by
  rw [receipt_extend]
  cases event with
  | received | allocated | malloced => cases h
  | sent | executed | lookedUp | stored | freed | released => rfl

/-- Events without a request. -/
theorem FromWire.extend_quiet (h : FromWire history) (hquiet : ∀ event ∈ events, event.payload = none) :
    FromWire (extend history i events) := by
  induction events generalizing history with
  | nil =>
    rw [extend_nil]
    exact h
  | cons event events ih =>
    rw [← List.singleton_append, extend_append]
    refine ih (h.extend_one fun bytes hpayload => ?_) fun x hx => hquiet x (List.mem_cons_of_mem _ hx)
    cases (hquiet event (List.mem_cons_self ..)).symm.trans hpayload

theorem FromWire.extend_executes (h : FromWire history) (hreceived : receipt history i = some ⟨p, bytes⟩)
    (hevents : Executes events bytes) : FromWire (extend history i events) := by
  induction events generalizing history with
  | nil =>
    rw [extend_nil]
    exact h
  | cons event events ih =>
    obtain ⟨hstill, hpayload⟩ := hevents event (List.mem_cons_self ..)
    rw [← List.singleton_append, extend_append]
    refine ih (h.extend_one fun bytes' hpayload' => ⟨p, ?_⟩) ?_ fun x hx =>
      hevents x (List.mem_cons_of_mem _ hx)
    · rcases hpayload with hnone | hsome
      · cases hnone.symm.trans hpayload'
      · cases hsome.symm.trans hpayload'
        exact hreceived
    · rw [receipt_still hstill]
      exact hreceived

/-! ### Calls -/

theorem socketFailure_events (hc : c.Valid) (h : socketFailure serverServices c w = .ok o) :
    o.events = [] ∨ ∃ p event, o.events = [.released p event] := by
  unfold socketFailure at h
  cases ha : c.flags.allocatedBuffer with
  | true =>
    rw [ha, if_pos rfl, freeKey_allocated hc ha] at h
    cases h
  | false =>
    simp only [ha, Bool.false_eq_true, if_false] at h
    cases hl : c.flags.lockAcquired with
    | true =>
      obtain ⟨-, p, hp⟩ := hc.sending_of_lock hl
      rw [hl, if_pos rfl, hp] at h
      cases h
      exact Or.inr ⟨_, _, rfl⟩
    | false =>
      rw [hl] at h
      cases h
      exact Or.inl rfl

theorem connectionTransfer_payload (hc : c.Valid)
    (h : connectionTransfer serverServices socket c w = .ok o) :
    ∀ event ∈ o.events, event.payload = none := by
  have hreturns := connectionTransfer_returns h
  cases hreturns with
  | idle => simp
  | received | sent => simp [Event.payload]
  | failed _ failure =>
    rcases socketFailure_events hc failure with hevents | ⟨p, event, hevents⟩ <;> rw [hevents]
    · simp
    · simp [Event.payload]

theorem attemptMemoryWrite_payload (h : attemptMemoryWrite serverServices c w = .ok o) :
    ∀ event ∈ o.events, event.payload = none := by
  unfold attemptMemoryWrite at h
  split at h <;> cases h <;> simp [Event.payload]

theorem connectionEvent_payload (hc : c.Valid) (hs : c.state ≠ .receivingBody)
    (h : connectionEvent serverServices c w = .ok o) : ∀ event ∈ o.events, event.payload = none := by
  obtain ⟨hphase, -⟩ := hc
  cases hphase with
  | receivingBody state => exact absurd state hs
  | receivingHeader state =>
    simp only [connectionEvent, state] at h
    cases h
    unfold eventReceivedHeader
    split
    · simp
    · simp only
      split <;> simp [Event.payload]
  | receivingArguments state =>
    simp only [connectionEvent, state] at h
    unfold eventReceivedArguments at h
    split at h
    · split at h <;> cases h <;> simp [Event.payload]
    · split at h <;> cases h <;> simp [Event.payload]
    · exact attemptMemoryWrite_payload h
    · cases h
  | awaitingWriteUnblock state | awaitingReadUnblock state =>
    simp only [connectionEvent, state] at h
    cases h
  | sendingHeader state buffer type final =>
    simp only [connectionEvent, state, eventSentHeader_final type final] at h
    cases h
    simp [finishRequest_events]
  | sendingValue state buffer type window entry =>
    simp only [connectionEvent, state, eventSentHeader_value type entry] at h
    cases h
    simp
  | sendingBody state type entry =>
    simp only [connectionEvent, state, eventSentBody_value type entry] at h
    cases h
    simp [Outcome.after, finishRequest_events, Event.payload]

theorem eventReceivedBody_executes (ht : c.requestType = some t) (hp : c.entryHeader = some p)
    (h : eventReceivedBody serverServices c w = .ok o) :
    Executes o.events ((requestOf t c w.memory p).key ++ (requestOf t c w.memory p).value) := by
  unfold eventReceivedBody at h
  rw [ht, hp] at h
  cases t with
  | get =>
    simp only at h
    split at h <;> cases h
    simp [Executes, Outcome.after, attemptMemoryRead_events, Event.payload, Event.still, requestOf]
  | delete =>
    simp only at h
    split at h <;> cases h
    simp [Executes, Event.payload, Event.still, requestOf]
  | put =>
    simp only at h
    split at h <;> cases h <;> simp [Executes, Event.payload, Event.still, requestOf]
  | ping => cases h

/-- The body is complete: it is key and value of the request. -/
theorem requestOf_body (hc : c.Valid) (hs : c.state = .receivingBody) (hzero : c.remainingBytes = 0)
    (ht : c.requestType = some t) (hfits : t = .put → c.keySize + c.valueSize < 2 ^ 32) (m : Memory)
    (p : Pointer) : (requestOf t c m p).key ++ (requestOf t c m p).value =
      m.read (p.add entryHeaderSize) c.bufferIndex := by
  obtain ⟨hphase, -⟩ := hc
  cases hphase with
  | receivingBody state buffer type payload window =>
    cases ht.symm.trans type
    rw [hzero, Nat.add_zero] at window
    cases t with
    | get | delete =>
      show _ ++ [] = _
      rw [List.append_nil, window]
      rfl
    | put =>
      rw [bodySize, Nat.mod_eq_of_lt (hfits rfl)] at window
      rw [window, Memory.read_add, Pointer.add_add]
      rfl
    | ping => exact absurd rfl payload
  | receivingHeader hs' | receivingArguments hs' | awaitingWriteUnblock hs' | awaitingReadUnblock hs'
  | sendingHeader hs' | sendingValue hs' | sendingBody hs' =>
    rw [hs] at hs'
    cases hs'

/-- What the body of a request has received. -/
theorem receipt_of_body (hc : c.Valid) (hp : c.Placed) (hs : c.state = .receivingBody)
    (hzero : c.remainingBytes = 0) (hkeyed : c.Keyed w history i) (huploads : c.Uploads w.memory history i)
    (ht : c.requestType = some t) (he : c.entryHeader = some p) : receipt history i =
      some ⟨p, (requestOf t c w.memory p).key ++ (requestOf t c w.memory p).value⟩ := by
  have hput := hp hs p he
  by_cases htype : t = .put
  · subst htype
    have hregion := region_eq_some hs ht he (hput.mp ht)
    obtain ⟨hfits, -, hreceived⟩ := huploads _ hregion
    rw [requestOf_body hc hs hzero ht (fun _ => hfits), hreceived, region_pointer hregion he]
    obtain ⟨block, offset⟩ := p
    cases hput.mp ht
    rfl
  · have hkey : ∃ n, c.keyBlock = some n := by
      obtain ⟨block, offset⟩ := p
      cases block with
      | ring => exact absurd (Option.some.inj (ht.symm.trans (hput.mpr rfl))) htype
      | key n =>
        refine ⟨n, ?_⟩
        unfold Connection.keyBlock
        rw [hs, he]
    obtain ⟨n, hn⟩ := hkey
    have hheld := hkeyed n hn
    cases he.symm.trans hheld.entry
    rw [requestOf_body hc hs hzero ht (fun h => absurd h htype)]
    exact hheld.received

theorem connectionEvent_fromWire (hc : c.Valid) (hp : c.Placed) (hzero : c.remainingBytes = 0)
    (hkeyed : c.Keyed w history i) (huploads : c.Uploads w.memory history i) (h : FromWire history)
    (hevent : connectionEvent serverServices c w = .ok o) : FromWire (extend history i o.events) := by
  by_cases hs : c.state = .receivingBody
  · have hbody : ∃ t p, c.requestType = some t ∧ c.entryHeader = some p := by
      obtain ⟨hphase, -⟩ := hc
      cases hphase with
      | receivingBody state buffer type payload window entry => exact ⟨_, _, type, entry⟩
      | receivingHeader hs' | receivingArguments hs' | awaitingWriteUnblock hs'
      | awaitingReadUnblock hs' | sendingHeader hs' | sendingValue hs' | sendingBody hs' =>
        rw [hs] at hs'
        cases hs'
    obtain ⟨t, p, ht, he⟩ := hbody
    have hreceived := receipt_of_body hc hp hs hzero hkeyed huploads ht he
    simp only [connectionEvent, hs] at hevent
    exact h.extend_executes hreceived (eventReceivedBody_executes ht he hevent)
  · exact h.extend_quiet (connectionEvent_payload hc hs hevent)

theorem ConnectionCall.fromWire {call : ConnectionCall} (hc : c.Valid) (hp : c.Placed)
    (hkeyed : c.Keyed w history i) (huploads : c.Uploads w.memory history i) (h : FromWire history)
    (hrun : call.run c w = .ok o) : FromWire (extend history i o.events) := by
  have hreturns := call.returns hrun
  cases hreturns with
  | transferred socket transfer => exact h.extend_quiet (connectionTransfer_payload hc transfer)
  | @completed o₁ o₂ socket transfer success complete event =>
    have hopen : o₁.result ≠ .disconnect := by rw [success]; decide
    show FromWire (extend history i (o₁.events ++ o₂.events))
    rw [extend_append]
    exact connectionEvent_fromWire (connectionTransfer_valid hc transfer hopen)
      (connectionTransfer_placed hc hp transfer hopen) complete
      (connectionTransfer_keyed hc hp hkeyed transfer hopen)
      ((connectionTransfer_effect hc hp transfer).uploads_next success huploads)
      (h.extend_quiet (connectionTransfer_payload hc transfer)) event
  | retriedRead retry =>
    refine h.extend_quiet ?_
    unfold connectionUnblockRead at retry
    split at retry
    · split at retry
      · cases retry
      · split at retry <;> cases retry <;>
          simp [Outcome.after, attemptMemoryRead_events, Event.payload]
    · cases retry
  | retriedWrite retry =>
    refine h.extend_quiet ?_
    unfold connectionUnblockWrite at retry
    split at retry
    · exact attemptMemoryWrite_payload retry
    · cases retry

end

end CacheServer
