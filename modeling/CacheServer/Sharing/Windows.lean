import CacheServer.Sharing.Exclusive
import CacheServer.Sharing.KeyHeap

/-!
# What recv and send are handed

In careful runs the window of a connection lies in the buffer that it points
into: in one of the two headers of the connection, in the block of the key that
it receives, or in a live entry of the ring, behind its header.
-/

namespace CacheServer
open EntryHeader

/-- The bytes from `buffer + buffer_index` on that the next transfer may touch lie wholly in the
object that `buffer` points into. -/
inductive Connection.WindowInside (c : Connection) (w : World System) : Prop
  | header (buffer : c.buffer = .header)
      (inside : c.bufferIndex + c.remainingBytes ≤ aggregateResponseHeaderSize)
  | arguments (buffer : c.buffer = .arguments)
      (inside : c.bufferIndex + c.remainingBytes ≤ keyValueArgumentsSize)
  | key {n : Nat} (buffer : c.buffer = .memory ⟨.key n, entryHeaderSize⟩)
      (live : n ∈ w.system.keyBuffers) (inside : c.bufferIndex + c.remainingBytes ≤ c.keySize)
  | entry {e : Slot} {offset : Nat} (buffer : c.buffer = .memory ⟨.ring, offset⟩)
      (live : e ∈ liveEntries w.store) (ring : e.stop ≤ w.system.queue.capacityBytes)
      (start : e.offset + entryHeaderSize ≤ offset)
      (inside : offset + (c.bufferIndex + c.remainingBytes) ≤ e.stop)

/-- While a value is sent, the window ends where the value of the entry does. -/
def Connection.Streams (c : Connection) (m : Memory) : Prop :=
  c.state = .sendingBody → ∀ p, c.entryHeader = some p →
    c.buffer = .memory (p.add (entryHeaderSize + EntryHeader.keySize m p)) ∧
      c.bufferIndex + c.remainingBytes = EntryHeader.valueSize m p

def Outcome.Streams (o : Outcome System) : Prop :=
  o.result ≠ .disconnect → o.connection.Streams o.world.memory

section
variable {c : Connection} {w : World System} {o : Outcome System} {socket : Socket} {m m' : Memory}

theorem streams_of_state (h : c.state ≠ .sendingBody) : c.Streams m := fun hs => absurd hs h

theorem Connection.Streams.congr (h : c.Streams m)
    (same : ∀ p, c.state = .sendingBody → c.entryHeader = some p → Unchanged p m m') :
    c.Streams m' := by
  intro hs p hp
  rw [(same p hs hp).keySize, (same p hs hp).valueSize]
  exact h hs p hp

/-! ### Events -/

theorem Outcome.Streams.after (h : o.Streams) (events : List Event) : (o.after events).Streams := h

theorem attemptMemoryRead_streams : (attemptMemoryRead c w).Streams := by
  intro _
  refine streams_of_state ?_
  unfold attemptMemoryRead
  split
  · intro hs
    cases hs
  · split <;> intro hs <;> cases hs

theorem attemptMemoryWrite_streams (h : attemptMemoryWrite serverServices c w = .ok o) : o.Streams := by
  intro _
  refine streams_of_state ?_
  unfold attemptMemoryWrite at h
  split at h <;> cases h <;> intro hs <;> cases hs

theorem eventReceivedHeader_streams : (eventReceivedHeader c w).Streams := by
  intro _
  refine streams_of_state ?_
  unfold eventReceivedHeader
  split
  · intro hs
    cases hs
  · simp only
    split <;> intro hs <;> cases hs

theorem eventReceivedArguments_streams (h : eventReceivedArguments serverServices c w = .ok o) :
    o.Streams := by
  unfold eventReceivedArguments at h
  split at h
  · split at h <;> cases h <;> exact fun _ => streams_of_state (by intro hs; cases hs)
  · split at h <;> cases h <;> exact fun _ => streams_of_state (by intro hs; cases hs)
  · exact attemptMemoryWrite_streams h
  · cases h

theorem eventReceivedBody_streams (h : eventReceivedBody serverServices c w = .ok o) : o.Streams := by
  unfold eventReceivedBody at h
  split at h
  · simp only at h
    split at h <;> cases h
    exact attemptMemoryRead_streams.after _
  · simp only at h
    split at h <;> cases h
    exact fun _ => streams_of_state (by intro hs; cases hs)
  · simp only at h
    split at h <;> cases h <;> exact fun _ => streams_of_state (by intro hs; cases hs)
  · cases h
  · cases h
  · cases h

theorem finishRequest_streams : (finishRequest c w).Streams := by
  intro hopen
  refine streams_of_state ?_
  unfold finishRequest at hopen ⊢
  split
  · intro hs
    cases hs
  · rename_i hlast
    rw [if_neg hlast] at hopen
    exact absurd rfl hopen

theorem eventSentHeader_streams (h : eventSentHeader c w = .ok o) : o.Streams := by
  unfold eventSentHeader at h
  split at h
  case h_9 =>
    split at h
    · cases h
    · rename_i p entry
      cases h
      intro _ _ q hq
      cases entry.symm.trans hq
      exact ⟨rfl, Nat.zero_add _⟩
  case h_10 => cases h
  all_goals
    cases h
    exact finishRequest_streams

theorem eventSentBody_streams (h : eventSentBody c w = .ok o) : o.Streams := by
  unfold eventSentBody at h
  split at h
  · cases h
    exact finishRequest_streams.after _
  · cases h
  · cases h

theorem connectionEvent_streams (h : connectionEvent serverServices c w = .ok o) : o.Streams := by
  unfold connectionEvent at h
  split at h
  · cases h
    exact eventReceivedHeader_streams
  · exact eventReceivedArguments_streams h
  · exact eventReceivedBody_streams h
  · exact eventSentHeader_streams h
  · exact eventSentBody_streams h
  · cases h

/-! ### Calls -/

theorem connectionTransfer_streams (hc : c.Streams w.memory)
    (h : connectionTransfer serverServices socket c w = .ok o) : o.Streams := by
  intro hopen
  cases connectionTransfer_returns h with
  | idle => exact hc
  | failed _ _ closed => exact absurd closed hopen
  | received bytes state =>
    refine streams_of_state fun hs => ?_
    have hstate : (storeReceived c w bytes).1.state = .sendingBody := hs
    rw [storeReceived_state] at hstate
    rw [hstate] at state
    cases state
  | sent bytes state some le =>
    intro hs p hp
    obtain ⟨hbuffer, hwindow⟩ := hc hs p hp
    exact ⟨hbuffer, by simp only [advance]; omega⟩

theorem connectionProc_streams (hc : c.Streams w.memory)
    (h : connectionProc serverServices socket c w = .ok o) : o.Streams := by
  cases connectionProc_returns h with
  | unsuccessful transfer => exact connectionTransfer_streams hc transfer
  | incomplete transfer => exact connectionTransfer_streams hc transfer
  | completed transfer success complete event => exact (connectionEvent_streams event).after _

theorem connectionUnblockRead_streams (h : connectionUnblockRead serverServices c w = .ok o) :
    o.Streams := by
  unfold connectionUnblockRead at h
  split at h
  · split at h
    · cases h
    · split at h <;> cases h
      · exact attemptMemoryRead_streams.after _
      · exact attemptMemoryRead_streams
  · cases h

theorem ConnectionCall.streams {call : ConnectionCall} (hc : c.Streams w.memory)
    (h : call.run c w = .ok o) : o.Streams := by
  cases call with
  | proc socket => exact connectionProc_streams hc h
  | unblockRead => exact connectionUnblockRead_streams h
  | unblockWrite =>
    simp only [run, connectionUnblockWrite] at h
    split at h
    · exact attemptMemoryWrite_streams h
    · cases h

end

/-! ### Runs -/

namespace Connections
variable {s s' : Connections} {es : List Slot} {i : Nat} {c : Connection}

/-- A connection that sends a value has locked a live entry. -/
theorem Owned.sends (h : s.Owned es) (hc : s.get i = some c) (hs : c.state = .sendingBody)
    {p : Pointer} (hp : c.entryHeader = some p) :
    ∃ e ∈ es, e.pointer = p ∧ 0 < s.holders e.pointer := by
  obtain ⟨hvalid, -⟩ := h.connection i c hc
  have hlock : s.lock i = some p := by
    rw [lock_eq hc]
    cases hvalid.phase with
    | sendingBody state type entry unallocated locked => exact lock_eq_some locked hp
    | receivingHeader state | receivingArguments state | receivingBody state
    | awaitingWriteUnblock state | awaitingReadUnblock state | sendingHeader state
    | sendingValue state =>
      rw [hs] at state
      cases state
  obtain ⟨e, he, rfl, -⟩ := h.held hlock
  exact ⟨e, he, rfl, (holders_pos h.fresh).mpr ⟨i, hlock⟩⟩

/-- Every connection that sends a value has its window there. -/
def Streaming (s : Connections) : Prop := ∀ i c, s.get i = some c → c.Streams s.world.memory

theorem Streaming.step {a : Action} (h : s.Streaming) (howned : s.Owned es) (careful : s.Careful a)
    (hstep : s.step a = .ok s') : s'.Streaming := by
  -- the entries that other connections send are locked before the step
  have hother : ∀ i c, s.get i = some c → c.Streams s'.world.memory := by
    intro i c hc
    refine (h i c hc).congr fun p hs hp => ?_
    obtain ⟨e, he, rfl, hpos⟩ := howned.sends hc hs hp
    obtain ⟨-, hsame⟩ := howned.locked_step he hpos careful hstep
    exact hsame.unchanged ((howned.base 0).header he)
  cases a with
  | accept fileDescriptor header arguments =>
    cases hstep
    intro i c hc
    by_cases hi : i = s.accepted
    · cases (if_pos hi).symm.trans hc
      exact streams_of_state (by intro hs; cases hs)
    · exact hother i c ((if_neg hi).symm.trans hc)
  | answer answers =>
    cases hstep
    exact hother
  | call j call =>
    obtain ⟨c₁, o, hc₁, hrun, rfl⟩ := step_call hstep
    intro i c hc
    by_cases hij : i = j
    · subst hij
      obtain ⟨hopen, rfl⟩ := after_get_self hc
      exact call.streams (h i c₁ hc₁) hrun hopen
    · rw [after_get hij] at hc
      exact hother i c hc

/-- The body of a `PUT` goes behind the header of the region, which lies in the ring. -/
theorem Owned.putInside (h : s.Owned es) (hc : s.get i = some c) {offset : Nat}
    (state : c.state = .receivingBody) (type : c.requestType = some .put)
    (entry : c.entryHeader = some ⟨.ring, offset⟩)
    (buffer : c.buffer = .memory (Pointer.add ⟨.ring, offset⟩ entryHeaderSize))
    (window : c.bufferIndex + c.remainingBytes = bodySize c .put) : c.WindowInside s.world := by
  have hring := (h.base i).ring
  have hregion : c.region = some ⟨offset, c.keySize, c.valueSize⟩ := region_eq_some state type entry rfl
  have he := ((h.base i).fills _ ((region_eq hc).trans hregion)).1
  refine .entry buffer ?_ (hring.inside _ he) le_rfl ?_
  · rw [hring.liveEntries_eq]
    exact he
  · have hsize : (c.keySize + c.valueSize) % 2 ^ 32 ≤ c.keySize + c.valueSize := Nat.mod_le ..
    rw [window]
    simp only [bodySize, Slot.stop, Slot.size]
    omega

/-- The key of a `GET` or `DELETE` goes behind the header of its block. -/
theorem HeapExact.keyInside (h : s.HeapExact) (hc : s.get i = some c) {n offset : Nat} {t : RequestType}
    (state : c.state = .receivingBody) (other : t ≠ .put) (payload : t ≠ .ping)
    (entry : c.entryHeader = some ⟨.key n, offset⟩)
    (buffer : c.buffer = .memory (Pointer.add ⟨.key n, offset⟩ entryHeaderSize))
    (window : c.bufferIndex + c.remainingBytes = bodySize c t) : c.WindowInside s.world := by
  have hblock : c.keyBlock = some n := by simp only [Connection.keyBlock, state, entry]
  cases entry.symm.trans (h.entry i c n hc hblock)
  refine .key (buffer.trans ?_) ((h.live n).mpr ⟨i, c, hc, hblock⟩) ?_
  · simp only [Pointer.add, Nat.zero_add]
  · rw [window]
    cases t with
    | put => exact absurd rfl other
    | ping => exact absurd rfl payload
    | get | delete => exact le_rfl

/-- A value is sent out of a live entry. -/
theorem Owned.valueInside (h : s.Owned es) (hstreams : s.Streaming) (hc : s.get i = some c)
    {p : Pointer} (state : c.state = .sendingBody) (entry : c.entryHeader = some p) :
    c.WindowInside s.world := by
  have hring := (h.base i).ring
  obtain ⟨hbuffer, hwindow⟩ := hstreams i c hc state p entry
  obtain ⟨e, he, rfl, -⟩ := h.sends hc state entry
  have hheader := (h.base i).header he
  rw [hheader.keySize] at hbuffer
  rw [hheader.valueSize] at hwindow
  refine .entry hbuffer ?_ (hring.inside _ he) ?_ ?_
  · rw [hring.liveEntries_eq]
    exact he
  · simp only [Slot.pointer, ringPointer]
    omega
  · rw [hwindow]
    simp only [Slot.pointer, ringPointer, Slot.stop, Slot.size]
    omega

/-- The window of a connection that receives or sends. -/
theorem Owned.windowInside (h : s.Owned es) (hheap : s.HeapExact) (hstreams : s.Streaming)
    (hc : s.get i = some c) (transfers : c.state.receiving = true ∨ c.state.sending = true) :
    c.WindowInside s.world := by
  obtain ⟨hvalid, hplaced⟩ := h.connection i c hc
  cases hvalid.phase with
  | receivingHeader state buffer window => exact .header buffer (by rw [window]; decide)
  | @receivingArguments t state buffer type payload window =>
    refine .arguments buffer ?_
    rw [window]
    cases t <;> decide
  | @receivingBody t p state buffer type payload window entry =>
    obtain ⟨block, offset⟩ := p
    have hput := hplaced state _ entry
    cases block with
    | key n =>
      have other : t ≠ .put := by
        rintro rfl
        cases hput.mp type
      exact hheap.keyInside hc state other payload entry buffer window
    | ring =>
      have ht : t = .put := Option.some.inj (type.symm.trans (hput.mpr rfl))
      subst ht
      exact h.putInside hc state type entry buffer window
  | awaitingWriteUnblock state | awaitingReadUnblock state =>
    rw [state] at transfers
    exact absurd transfers (by decide)
  | sendingHeader state buffer type final window => exact .header buffer (by rw [window]; decide)
  | sendingValue state buffer type window => exact .header buffer window.le
  | sendingBody state type entry => exact h.valueInside hstreams hc state entry

end Connections

section
variable {hash : List UInt8 → Nat} {capacityBytes : Nat} {memory : Memory} {s : Connections}
  {i : Nat} {c : Connection}

theorem CarefulRun.streaming (hcap : capacityBytes < 2 ^ 64)
    (run : CarefulRun hash capacityBytes memory s) : s.Streaming := by
  induction run with
  | opened => exact fun i c hc => by cases hc
  | stepped a run careful step ih =>
    obtain ⟨es, howned⟩ := CarefulRun.owned hcap run
    exact ih.step howned careful step

end

end CacheServer
