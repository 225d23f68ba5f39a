import CacheServer.Library.Fuel
import CacheServer.Model.Server
import CacheServer.Wire.Phases

/-!
# Lock releases and the scheduler

handle_lock_release_event asks the current connection for the event and the
entry of the lock that `connection_proc` has just released.
-/

namespace CacheServer
open EntryHeader

/-- The connection reports every release of the step, and nothing else. -/
def Outcome.Reported {σ : Type} (o : Outcome σ) : Prop :=
  (∀ p event, .released p event ∈ o.events → event ≠ .none →
      o.connection.lockReleaseEvent = event ∧ o.connection.entryHeader = some p) ∧
    ((∀ p event, .released p event ∉ o.events) → o.connection.lockReleaseEvent = .none)

/-- The step sends the last bytes of a value on a connection that is kept alive, and its lock
is the last one, or one of as many as there can be. -/
def FinishesKeptAliveRead {σ : Type} (socket : Socket) (c : Connection) (w : World σ) : Prop :=
  c.state = .sendingBody ∧ c.flags.keepAlive = true ∧ socket.failed = false ∧
    0 < c.remainingBytes ∧ c.remainingBytes ≤ socket.room ∧
      ∃ p, c.entryHeader = some p ∧
        (locks w.memory p = 1 ∨ locks w.memory p = entryHeaderLockCapacity)

section
variable {σ : Type} {S : Services σ} {socket : Socket} {c : Connection} {w : World σ}

theorem releaseLock_event (m : Memory) (p : Pointer) : (entryHeaderReleaseLock m p).1 ≠ .none ↔
    locks m p = 1 ∨ locks m p = entryHeaderLockCapacity := by
  have hlt := locks_lt m p
  unfold entryHeaderReleaseLock entryHeaderLockCapacity
  generalize locks m p = n at hlt
  by_cases h0 : n = 0
  · simp [h0]
  by_cases h1 : n = 1
  · simp [h1]
  by_cases h2 : n = 0xFFFF
  · simp [h2]
  · have hpred : ¬ n - 1 = 0 := by omega
    have hcapacity : ¬ n - 1 = 65534 := by omega
    simp [h0, h1, h2, hpred, hcapacity]

/-! ### Steps that release nothing -/

def Unreleased (events : List Event) : Prop := ∀ p event, .released p event ∉ events

theorem eventReceivedHeader_unreleased (c : Connection) (w : World σ) :
    Unreleased (eventReceivedHeader c w).events := by
  intro p event
  unfold eventReceivedHeader
  split
  · simp
  · simp only
    split <;> simp

theorem attemptMemoryWrite_unreleased {o : Outcome σ} (h : attemptMemoryWrite S c w = .ok o) :
    Unreleased o.events := by
  intro p event
  unfold attemptMemoryWrite at h
  split at h <;> cases h <;> simp

theorem eventReceivedArguments_unreleased {o : Outcome σ}
    (h : eventReceivedArguments S c w = .ok o) : Unreleased o.events := by
  intro p event
  unfold eventReceivedArguments at h
  split at h
  · split at h <;> cases h <;> simp
  · split at h <;> cases h <;> simp
  · exact attemptMemoryWrite_unreleased h p event
  · cases h

theorem eventReceivedBody_unreleased {o : Outcome σ} (h : eventReceivedBody S c w = .ok o) :
    Unreleased o.events := by
  intro p event
  unfold eventReceivedBody at h
  split at h
  · simp only at h
    split at h <;> cases h
    simp [Outcome.after, attemptMemoryRead_events]
  · simp only at h
    split at h <;> cases h
    simp
  · simp only at h
    split at h <;> cases h <;> simp
  · cases h
  · cases h
  · cases h

theorem finishRequest_events (c : Connection) (w : World σ) : (finishRequest c w).events = [] := by
  unfold finishRequest
  split <;> rfl

theorem finishRequest_event (he : c.lockReleaseEvent = .none) :
    (finishRequest c w).connection.lockReleaseEvent = .none := by
  unfold finishRequest
  split
  · rfl
  · exact he

/- Outside the sending of a value, a completed transfer releases nothing and reports nothing. -/
theorem connectionEvent_quiet {o : Outcome σ} (hc : c.Valid) (hs : c.state ≠ .sendingBody)
    (h : connectionEvent S c w = .ok o) :
    o.connection.lockReleaseEvent = .none ∧ Unreleased o.events := by
  have hvalid := connectionEvent_valid hc h
  have hopen : c.state.receiving = true → o.connection.lockReleaseEvent = .none :=
    fun hr => (hvalid (connectionEvent_result hr h)).event
  obtain ⟨hphase, he⟩ := hc
  cases hphase with
  | receivingHeader state buffer window entry flags =>
    refine ⟨hopen (by rw [state]; rfl), ?_⟩
    simp only [connectionEvent, state] at h
    cases h
    exact eventReceivedHeader_unreleased c w
  | receivingArguments state buffer type payload window entry unallocated unlocked =>
    refine ⟨hopen (by rw [state]; rfl), ?_⟩
    simp only [connectionEvent, state] at h
    exact eventReceivedArguments_unreleased h
  | receivingBody state buffer type payload window entry allocated unlocked =>
    refine ⟨hopen (by rw [state]; rfl), ?_⟩
    simp only [connectionEvent, state] at h
    exact eventReceivedBody_unreleased h
  | awaitingWriteUnblock state | awaitingReadUnblock state =>
    simp only [connectionEvent, state] at h
    cases h
  | sendingHeader state buffer type final window unlocked =>
    simp only [connectionEvent, state, eventSentHeader_final type final] at h
    cases h
    refine ⟨finishRequest_event ?_, by rw [finishRequest_events]; simp [Unreleased]⟩
    split <;> exact he
  | sendingValue state buffer type window entry unallocated locked =>
    simp only [connectionEvent, state, eventSentHeader_value type entry] at h
    cases h
    exact ⟨he, by simp [Unreleased]⟩
  | sendingBody state => exact absurd state hs

/-! ### Steps that release -/

theorem socketFailure_reported {o : Outcome σ} (he : c.lockReleaseEvent = .none)
    (h : socketFailure S c w = .ok o) : o.Reported := by
  unfold socketFailure at h
  split at h
  · cases h
  · simp only at h
    split at h
    · split at h
      · cases h
      rename_i w' _ _ _ p hp
      generalize entryHeaderReleaseLock w'.memory p = r at h
      cases h
      refine ⟨fun q event hmem _ => ?_, fun hnone => ?_⟩
      · rcases List.mem_append.mp hmem with hf | hr
        · split at hf <;> simp at hf
        · obtain ⟨hq, hevent⟩ := Event.released.inj (List.mem_singleton.mp hr)
          exact ⟨hevent.symm, hq ▸ hp⟩
      · exact absurd (List.mem_append_right _ (List.mem_singleton.mpr rfl)) (hnone p _)
    · cases h
      refine ⟨fun q event hmem => ?_, fun _ => he⟩
      split at hmem <;> simp at hmem

theorem Outcome.reported_after (o : Outcome σ) {events : List Event} (hu : Unreleased events) :
    (o.after events).Reported ↔ o.Reported := by
  have hmem : ∀ p event, .released p event ∈ (o.after events).events ↔ .released p event ∈ o.events :=
    fun p event => ⟨fun h => (List.mem_append.mp h).resolve_left (hu p event),
      fun h => List.mem_append_right _ h⟩
  simp only [Outcome.Reported, hmem]
  rfl

theorem eventSentBody_closed {p : Pointer} (ht : c.responseType = some .value)
    (hp : c.entryHeader = some p) (hk : c.flags.keepAlive = false) :
    eventSentBody c w = .ok ⟨.disconnect, { c with
        lockReleaseEvent := (entryHeaderReleaseLock w.memory p).1
        flags := { c.flags with lockAcquired := false } },
      { w with memory := (entryHeaderReleaseLock w.memory p).2 },
      [.released p (entryHeaderReleaseLock w.memory p).1]⟩ := by
  simp [eventSentBody_value ht hp, finishRequest, hk, Outcome.after]

theorem eventSentBody_kept {p : Pointer} (ht : c.responseType = some .value)
    (hp : c.entryHeader = some p) (hk : c.flags.keepAlive = true) :
    eventSentBody c w = .ok ⟨.newRequest, initRequest c,
      { w with memory := (entryHeaderReleaseLock w.memory p).2 },
      [.released p (entryHeaderReleaseLock w.memory p).1]⟩ := by
  simp [eventSentBody_value ht hp, finishRequest, hk, Outcome.after, initRequest]

/- The end of a value: reported if the connection is closed or the release has no event. -/
theorem eventSentBody_reported {p : Pointer} {o : Outcome σ} (ht : c.responseType = some .value)
    (hp : c.entryHeader = some p) (h : eventSentBody c w = .ok o) :
    o.Reported ↔ c.flags.keepAlive = false ∨ (entryHeaderReleaseLock w.memory p).1 = .none := by
  cases hk : c.flags.keepAlive with
  | false =>
    rw [eventSentBody_closed ht hp hk] at h
    generalize entryHeaderReleaseLock w.memory p = r at h ⊢
    cases h
    refine ⟨fun _ => Or.inl rfl, fun _ => ⟨fun q event hmem _ => ?_, fun hnone => ?_⟩⟩
    · obtain ⟨hq, hevent⟩ := Event.released.inj (List.mem_singleton.mp hmem)
      exact ⟨hevent.symm, hq ▸ hp⟩
    · exact absurd (List.mem_singleton.mpr rfl) (hnone p _)
  | true =>
    rw [eventSentBody_kept ht hp hk] at h
    generalize entryHeaderReleaseLock w.memory p = r at h ⊢
    cases h
    constructor
    · intro hreported
      refine Or.inr ?_
      by_contra hne
      obtain ⟨hevent, _⟩ := hreported.1 p _ (List.mem_singleton.mpr rfl) hne
      exact hne hevent.symm
    · intro hnone
      have hnone := hnone.resolve_left (by decide)
      refine ⟨fun q event hmem hne => ?_, fun hfree => ?_⟩
      · obtain ⟨_, hevent⟩ := Event.released.inj (List.mem_singleton.mp hmem)
        exact absurd (hevent.trans hnone) hne
      · exact absurd (List.mem_singleton.mpr rfl) (hfree p _)

theorem connectionEvent_sendingBody (hs : c.state = .sendingBody) :
    connectionEvent S c w = eventSentBody c w := by
  unfold connectionEvent
  rw [hs]

theorem connectionTransfer_quiet {o : Outcome σ} (hc : c.Valid) (hf : socket.failed = false)
    (h : connectionTransfer S socket c w = .ok o) : o.Reported ∧ Unreleased o.events := by
  have hvalid := connectionTransfer_valid hc h
  have hquiet : o.result ≠ .disconnect → Unreleased o.events → o.Reported ∧ Unreleased o.events :=
    fun hne hu => ⟨⟨fun p event hmem => absurd hmem (hu p event), fun _ => (hvalid hne).event⟩, hu⟩
  have hreturns := connectionTransfer_returns h
  cases hreturns with
  | idle => exact hquiet (by simp) (by simp [Unreleased])
  | failed hfailed =>
    rw [hf] at hfailed
    cases hfailed
  | received bytes state some le front => exact hquiet (by simp) (by simp [Unreleased])
  | sent bytes state some le front => exact hquiet (by simp) (by simp [Unreleased])

theorem connectionTransfer_failed {o : Outcome σ} (hc : c.Valid) (hf : socket.failed = true)
    (h : connectionTransfer S socket c w = .ok o) : o.result ≠ .success ∧ o.Reported := by
  have hreturns := connectionTransfer_returns h
  cases hreturns with
  | idle => exact ⟨by simp, fun p event hmem => by simp at hmem, fun _ => hc.event⟩
  | failed _ failure closed =>
    refine ⟨?_, socketFailure_reported hc.event failure⟩
    rw [closed]
    decide
  | received bytes state some le front works | sent bytes state some le front works =>
    rw [hf] at works
    cases works

theorem sent_of_sendingBody {o : Outcome σ} (h : connectionTransfer S socket c w = .ok o)
    (hr : o.result = .success) (hs : o.connection.state = .sendingBody) :
    ∃ bytes, c.state = .sendingBody ∧ o = ⟨.success, advance c bytes.length, w, [.sent bytes]⟩ ∧
      bytes ≠ [] ∧ bytes = (pendingBytes c w).take socket.room ∧ socket.failed = false := by
  have hreturns := connectionTransfer_returns h
  cases hreturns with
  | idle =>
    cases hr
  | failed _ _ closed =>
    rw [closed] at hr
    cases hr
  | received bytes state some le front works =>
    have hstate : c.state = .sendingBody := (storeReceived_state c w bytes).symm.trans hs
    rw [hstate] at state
    cases state
  | sent bytes state some le front works => exact ⟨bytes, hs, rfl, some, front, works⟩

/-! ### The step as a whole -/

theorem FinishesKeptAliveRead.transfer (h : FinishesKeptAliveRead socket c w) :
    connectionTransfer S socket c w =
      .ok ⟨.success, advance c c.remainingBytes, w, [.sent (pendingBytes c w)]⟩ := by
  obtain ⟨hs, _, hf, hpos, hroom, _⟩ := h
  have hlen := pendingBytes_length c w
  have hne : pendingBytes c w ≠ [] := by
    rw [← List.length_pos_iff, hlen]
    exact hpos
  have htake : (pendingBytes c w).take socket.room = pendingBytes c w :=
    List.take_of_length_le (by rw [hlen]; exact hroom)
  rw [connectionTransfer_sending S socket c w (by rw [hs]; rfl), Socket.send, hf, if_neg (by decide),
    if_neg hne, if_neg (by omega), htake, ← hlen]
  cases hb : pendingBytes c w with
  | nil => exact absurd hb hne
  | cons b bs => rfl

/- A transfer that completes the value and meets the rest of the condition is that of
`FinishesKeptAliveRead`. -/
theorem finishes_of_sent {p : Pointer} {bytes : List UInt8} (hs : c.state = .sendingBody)
    (hk : c.flags.keepAlive = true) (hp : c.entryHeader = some p) (hf : socket.failed = false)
    (hb : bytes ≠ []) (hfront : bytes = (pendingBytes c w).take socket.room)
    (hdone : c.remainingBytes - bytes.length = 0) (he : (entryHeaderReleaseLock w.memory p).1 ≠ .none) :
    FinishesKeptAliveRead socket c w := by
  have hlen : bytes.length = min socket.room c.remainingBytes := by
    rw [hfront, List.length_take, pendingBytes_length]
  have hpos := List.length_pos_iff.mpr hb
  exact ⟨hs, hk, hf, by omega, by omega, p, hp, (releaseLock_event w.memory p).mp he⟩

theorem FinishesKeptAliveRead.not_reported {o : Outcome σ} (hc : c.Valid)
    (h : FinishesKeptAliveRead socket c w) (hok : connectionProc S socket c w = .ok o) : ¬ o.Reported := by
  have ht := h.transfer (S := S)
  obtain ⟨hs, hk, _, _, _, p, hp, hlocks⟩ := h
  obtain ⟨_, type, _⟩ := hc.sendingBody hs
  rw [connectionProc_eq_of_transfer S socket c w ht, if_neg (by simp),
    if_neg (by simp [advance])] at hok
  cases he : connectionEvent S (advance c c.remainingBytes) w with
  | error fault => simp [he, Except.map] at hok
  | ok o' =>
    rw [he] at hok
    cases hok
    rw [connectionEvent_sendingBody (c := advance c c.remainingBytes) hs] at he
    rw [Outcome.reported_after _ (by simp [Unreleased]),
      eventSentBody_reported (c := advance c c.remainingBytes) type hp he]
    rintro (hk' | hnone)
    · exact absurd (hk.symm.trans hk') (by decide)
    · exact absurd hnone ((releaseLock_event w.memory p).mpr hlocks)

theorem connectionTransfer_reported {o : Outcome σ} (hc : c.Valid)
    (h : connectionTransfer S socket c w = .ok o) : o.Reported := by
  cases hf : socket.failed with
  | true => exact (connectionTransfer_failed hc hf h).2
  | false => exact (connectionTransfer_quiet hc hf h).1

theorem connectionProc_reported {o : Outcome σ} (hc : c.Valid)
    (hf : ¬ FinishesKeptAliveRead socket c w) (hok : connectionProc S socket c w = .ok o) :
    o.Reported := by
  have hreturns := connectionProc_returns hok
  cases hreturns with
  | unsuccessful transfer | incomplete transfer => exact connectionTransfer_reported hc transfer
  | @completed o₁ o₂ transfer success complete event =>
    have hworks : socket.failed = false := by
      by_contra hfailed
      exact (connectionTransfer_failed hc (by simpa using hfailed) transfer).1 success
    obtain ⟨-, hquiet⟩ := connectionTransfer_quiet hc hworks transfer
    rw [Outcome.reported_after _ hquiet]
    by_cases hs : o₁.connection.state = .sendingBody
    · obtain ⟨bytes, hs', rfl, hb, hfront, hworks⟩ := sent_of_sendingBody transfer success hs
      obtain ⟨p, htype, hp⟩ := hc.sendingBody hs'
      rw [connectionEvent_sendingBody hs] at event
      rw [eventSentBody_reported (c := advance c bytes.length) (p := p) htype hp event]
      by_contra hneither
      push Not at hneither
      obtain ⟨hk, hevent⟩ := hneither
      exact hf (finishes_of_sent hs' (by simpa [advance] using hk) hp hworks hb hfront
        (by simpa [advance] using complete) hevent)
    · have hvalid := connectionTransfer_valid hc transfer (by rw [success]; decide)
      obtain ⟨hnone, hu⟩ := connectionEvent_quiet hvalid hs event
      exact ⟨fun p event hmem => absurd hmem (hu p event), fun _ => hnone⟩

/-- The scheduler learns of a release unless the connection is kept alive after it. -/
theorem lockRelease_reported_iff {o : Outcome σ} (h : Connection.Reachable S c)
    (hok : connectionProc S socket c w = .ok o) :
    o.Reported ↔ ¬ FinishesKeptAliveRead socket c w := by
  constructor
  · intro hreported hf
    exact hf.not_reported h.valid hok hreported
  · intro hf
    exact connectionProc_reported h.valid hf hok

end

/-! ### A release that the scheduler does not see -/

/-- A connection that is alone, up to where it is closed. -/
def runAlone : List Socket → Connection → World System → Option (Connection × World System)
  | [], c, w => some (c, w)
  | socket :: sockets, c, w =>
    match connectionProc serverServices socket c w with
    | .error _ => none
    | .ok o => if o.result = .disconnect then none else runAlone sockets o.connection o.world

theorem runAlone_reachable {sockets : List Socket} {c c' : Connection} {w w' : World System}
    (h : Connection.Reachable serverServices c) (hr : runAlone sockets c w = some (c', w')) :
    Connection.Reachable serverServices c' := by
  induction sockets generalizing c w with
  | nil =>
    cases hr
    exact h
  | cons socket sockets ih =>
    rw [runAlone] at hr
    cases hp : connectionProc serverServices socket c w with
    | error fault => simp [hp] at hr
    | ok o =>
      simp only [hp] at hr
      split at hr
      · cases hr
      · rename_i hopen
        exact ih (.proc socket w h hp hopen) hr

/-- `PUT a = b` with KEEP_ALIVE and `GET a` with these flags, up to the value. -/
def readOfA (flags : UInt8) : Option (Connection × World System) :=
  runAlone [⟨[1, 0, 1, 2], false, 0, false⟩, ⟨[1, 0, 1, 0, 0, 0], false, 0, false⟩,
      ⟨[97, 98], false, 0, false⟩, ⟨[], false, 1, false⟩, ⟨[1, 0, flags, 1], false, 0, false⟩,
      ⟨[1, 0], false, 0, false⟩, ⟨[97], false, 0, false⟩, ⟨[], false, 5, false⟩]
    (connectionInit 5 (fun _ => 0) fun _ => 0) (cacheServerOpen ByteArea.decodeLE 64 fun _ _ => 0).world

/- Without KEEP_ALIVE the last release is reported. -/
theorem lockRelease_reported_closed : ∃ c w o,
    connectionProc serverServices ⟨[], false, 1, false⟩ c w = .ok o ∧
      .released (ringPointer 0) .writesUnblocked ∈ o.events ∧ o.Reported := by
  have hrun : ∃ cw ∈ readOfA 0,
      (connectionProc serverServices ⟨[], false, 1, false⟩ cw.1 cw.2).Gives fun o =>
        .released (ringPointer 0) .writesUnblocked ∈ o.events ∧ cw.1.flags.keepAlive = false := by
    decide +kernel
  obtain ⟨⟨c, w⟩, hcw, o, hp, hmem, hclosed⟩ := hrun
  have hreach := runAlone_reachable (.init ..) hcw
  refine ⟨c, w, o, hp, hmem, (lockRelease_reported_iff hreach hp).mpr fun hf => ?_⟩
  exact absurd (hclosed.symm.trans hf.2.1) (by decide)

/-- Sending the value releases the last lock; the connection has forgotten event and entry. -/
theorem lockRelease_lost : ∃ c w o, Connection.Reachable serverServices c ∧
    connectionProc serverServices ⟨[], false, 1, false⟩ c w = .ok o ∧
      .released (ringPointer 0) .writesUnblocked ∈ o.events ∧
        o.connection.lockReleaseEvent = .none ∧ o.connection.entryHeader = none ∧ ¬ o.Reported := by
  have hrun : ∃ cw ∈ readOfA 1,
      (connectionProc serverServices ⟨[], false, 1, false⟩ cw.1 cw.2).Gives fun o =>
        .released (ringPointer 0) .writesUnblocked ∈ o.events ∧
          o.connection.lockReleaseEvent = .none ∧ o.connection.entryHeader = none := by
    decide +kernel
  obtain ⟨⟨c, w⟩, hcw, o, hp, hmem, hevent, hentry⟩ := hrun
  have hreach := runAlone_reachable (.init ..) hcw
  refine ⟨c, w, o, hreach, hp, hmem, hevent, hentry, fun hreported => ?_⟩
  obtain ⟨hsame, _⟩ := hreported.1 _ _ hmem (by decide)
  rw [hevent] at hsame
  cases hsame

end CacheServer
