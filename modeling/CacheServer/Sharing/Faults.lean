import CacheServer.Ring.Admission
import CacheServer.Ring.CleanRuns
import CacheServer.Sharing.Windows
import CacheServer.Wire.KeyBuffers

/-!
# The faults of the connections

What ends a run is a socket that fails while the flag of the key buffer is set,
where free() is handed an interior pointer, or an allocation at the end of the
ring, where the marker does not fit.
-/

namespace CacheServer
open EntryHeader

/-- No header fits between `write_index` and the end of the ring. -/
def World.Narrow (w : World System) : Prop :=
  w.system.queue.capacityBytes < w.system.queue.writeIndex + entryHeaderSize

namespace ConnectionCall

/-- The calls that cache_server.c makes of a connection in this state. -/
def Legal (call : ConnectionCall) (c : Connection) : Prop :=
  match call with
  | .proc _ => c.state.receiving = true ∨ c.state.sending = true
  | .unblockRead => c.state = .awaitingReadUnblock
  | .unblockWrite => c.state = .awaitingWriteUnblock

/-- The socket fails while the flag of the key buffer is set. -/
def Misfrees (call : ConnectionCall) (c : Connection) : Prop :=
  match call with
  | .proc socket => c.flags.allocatedBuffer = true ∧ socket.failed = true
  | .unblockRead | .unblockWrite => False

/-- The call comes to an allocation that needs the marker where it does not fit. -/
def Overruns (call : ConnectionCall) (c : Connection) (w : World System) : Prop :=
  ∃ r ∈ call.reached c w, r.1.Allocates r.2 ∧ r.2.Narrow

end ConnectionCall

section
variable {c : Connection} {w : World System} {o : Outcome System} {socket : Socket} {es : List Slot}
  {H : Pointer → Nat} {F : Slot → Prop} {call : ConnectionCall}

/-! ### Transfers -/

theorem socketFailure_misfrees (hc : c.Valid) (hf : c.flags.allocatedBuffer = true) :
    socketFailure serverServices c w = .error .invalidFree := by
  simp only [socketFailure, hf, if_true, freeKey_allocated hc hf]

theorem socketFailure_faults (hc : c.Valid) :
    (∃ fault, socketFailure serverServices c w = .error fault) ↔ c.flags.allocatedBuffer = true := by
  cases hf : c.flags.allocatedBuffer with
  | true => exact iff_of_true ⟨.invalidFree, socketFailure_misfrees hc hf⟩ rfl
  | false =>
    refine iff_of_false ?_ (by simp)
    rintro ⟨fault, h⟩
    simp only [socketFailure, hf, Bool.false_eq_true, if_false] at h
    split at h
    · rename_i hl
      split at h
      · rename_i hnone
        obtain ⟨-, p, hp⟩ := hc.sending_of_lock hl
        cases hp.symm.trans hnone
      · cases h
    · cases h

theorem connectionTransfer_socketFailure (legal : c.state.receiving = true ∨ c.state.sending = true)
    (hf : socket.failed = true) :
    connectionTransfer serverServices socket c w = socketFailure serverServices c w := by
  rcases legal with hr | hs
  · rw [connectionTransfer_receiving _ _ _ _ hr, Socket.recv, if_pos hf]
  · rw [connectionTransfer_sending _ _ _ _ hs, Socket.send, if_pos hf]

theorem connectionTransfer_faults (hc : c.Valid)
    (legal : c.state.receiving = true ∨ c.state.sending = true) :
    (∃ fault, connectionTransfer serverServices socket c w = .error fault) ↔
      c.flags.allocatedBuffer = true ∧ socket.failed = true := by
  by_cases hf : socket.failed = true
  · rw [connectionTransfer_socketFailure legal hf, socketFailure_faults hc]
    exact ⟨fun h => ⟨h, hf⟩, fun h => h.1⟩
  · refine iff_of_false ?_ fun h => hf h.2
    rintro ⟨fault, h⟩
    have hcases := connectionTransfer_cases serverServices socket c w
    rw [h] at hcases
    generalize hr : (.error fault : Except Fault (Outcome System)) = r at hcases
    cases hcases with
    | unsupported state =>
      rcases legal with hl | hl
      · rw [state.1] at hl
        cases hl
      · rw [state.2] at hl
        cases hl
    | failed failed => exact hf failed
    | idle | received | sent => cases hr

/-! ### Events -/

theorem attemptMemoryWrite_faults (hring : Ring w.store es) (hindex : SafeIndex w.store es) :
    (∃ fault, attemptMemoryWrite serverServices c w = .error fault) ↔
      totalSize c.keySize c.valueSize ≤ w.store.queue.capacityBytes ∧ w.Narrow := by
  by_cases hlarge : w.store.queue.capacityBytes < totalSize c.keySize c.valueSize
  · refine iff_of_false ?_ fun h => by omega
    rintro ⟨fault, h⟩
    simp only [attemptMemoryWrite, serverServices, memoryQueueAllocate_large hlarge] at h
    cases h
  have hsize : totalSize c.keySize c.valueSize ≤ w.store.queue.capacityBytes := Nat.not_lt.mp hlarge
  by_cases hnarrow : w.Narrow
  · refine iff_of_true ⟨.outOfBounds, ?_⟩ ⟨hsize, hnarrow⟩
    simp only [attemptMemoryWrite, serverServices, memoryQueueAllocate_narrow hring hsize hnarrow]
  · refine iff_of_false ?_ fun h => hnarrow h.2
    rintro ⟨fault, h⟩
    simp only [attemptMemoryWrite, serverServices] at h
    have hcall := hring.allocated hindex c.keySize c.valueSize
      (w.system.answers.timestamp + w.system.answers.entryExpiryMicros) c.entryHeader
    generalize memoryQueueAllocate w.store c.keySize c.valueSize
      (w.system.answers.timestamp + w.system.answers.entryExpiryMicros) c.entryHeader = r at hcall h
    cases hcall with
    | outOfBounds narrow => exact hnarrow narrow
    | outOfMemory | writeBlocked | success => cases h

/-- The key of a GET or DELETE lies in a block that is not yet freed. -/
def Connection.KeyLive (c : Connection) (w : World System) : Prop :=
  ∀ n, c.keyBlock = some n → c.entryHeader = some ⟨.key n, 0⟩ ∧ n ∈ w.system.keyBuffers

theorem eventReceivedBody_ok (hs : c.state = .receivingBody) (hc : c.Valid) (hp : c.Placed)
    (hk : c.KeyLive w) : ∃ o, eventReceivedBody serverServices c w = .ok o := by
  cases hc.phase with
  | @receivingBody t p state buffer type payload window entry =>
    have hplaced := hp hs p entry
    have hkey : t ≠ .put → KeyBuffer w p := by
      intro ht
      have hblock : p.block ≠ .ring := fun hr => ht (Option.some.inj (type.symm.trans (hplaced.mpr hr)))
      obtain ⟨block, offset⟩ := p
      cases block with
      | ring => exact absurd rfl hblock
      | key n =>
        have hn : c.keyBlock = some n := by simp only [Connection.keyBlock, hs, entry]
        obtain ⟨he, hlive⟩ := hk n hn
        cases entry.symm.trans he
        exact ⟨n, hlive, rfl⟩
    cases t with
    | ping => exact absurd rfl payload
    | get =>
      obtain ⟨found, request, w', h⟩ := eventReceivedBody_get type entry (hkey (by decide))
      exact ⟨_, h⟩
    | delete =>
      obtain ⟨request, w', h⟩ := eventReceivedBody_delete type entry (hkey (by decide))
      exact ⟨_, h⟩
    | put =>
      simp only [eventReceivedBody, type, entry]
      split <;> exact ⟨_, rfl⟩
  | receivingHeader state | receivingArguments state | awaitingWriteUnblock state
  | awaitingReadUnblock state | sendingHeader state | sendingValue state | sendingBody state =>
    rw [hs] at state
    cases state

theorem eventReceivedArguments_ok (ht : c.requestType = some .get ∨ c.requestType = some .delete) :
    ∃ o, eventReceivedArguments serverServices c w = .ok o := by
  rcases ht with ht | ht
  · simp only [eventReceivedArguments, ht]
    split <;> exact ⟨_, rfl⟩
  · simp only [eventReceivedArguments, ht]
    split <;> exact ⟨_, rfl⟩

theorem not_faults {r : Except Fault (Outcome System)} (h : ∃ o, r = .ok o) :
    ¬ ∃ fault, r = .error fault := by
  obtain ⟨o, rfl⟩ := h
  rintro ⟨fault, hr⟩
  cases hr

theorem Connection.not_allocates (hs : c.state ≠ .receivingArguments) (hs' : c.state ≠ .awaitingWriteUnblock) :
    ¬ (c.Allocates w ∧ w.Narrow) := by
  rintro ⟨⟨hr | hr, -⟩, -⟩
  · exact hs hr
  · exact hs' hr

theorem connectionEvent_faults (hc : c.Valid) (hp : c.Placed) (hk : c.KeyLive w)
    (legal : c.state.receiving = true ∨ c.state.sending = true)
    (hring : c.state = .receivingArguments → ∃ es, Ring w.store es ∧ SafeIndex w.store es) :
    (∃ fault, connectionEvent serverServices c w = .error fault) ↔ c.Allocates w ∧ w.Narrow := by
  cases hc.phase with
  | receivingHeader state =>
    refine iff_of_false (not_faults ?_) (c.not_allocates (by simp [state]) (by simp [state]))
    simp only [connectionEvent, state]
    exact ⟨_, rfl⟩
  | @receivingArguments t state buffer type payload =>
    simp only [connectionEvent, state]
    cases t with
    | ping => exact absurd rfl payload
    | get | delete =>
      refine iff_of_false (not_faults (eventReceivedArguments_ok (by simp [type]))) ?_
      rintro ⟨⟨-, hput, -⟩, -⟩
      cases type.symm.trans hput
    | put =>
      obtain ⟨es, hring, hindex⟩ := hring state
      have hwrite := attemptMemoryWrite_faults (c := c) hring hindex
      simp only [eventReceivedArguments, type]
      rw [hwrite]
      exact and_congr_left fun _ => ⟨fun hsize => ⟨Or.inl state, type, hsize⟩, fun h => h.2.2⟩
  | receivingBody state =>
    refine iff_of_false (not_faults ?_) (c.not_allocates (by simp [state]) (by simp [state]))
    simp only [connectionEvent, state]
    exact eventReceivedBody_ok state hc hp hk
  | awaitingWriteUnblock state | awaitingReadUnblock state =>
    rw [state] at legal
    exact absurd legal (by decide)
  | @sendingHeader t state buffer type final window unlocked =>
    refine iff_of_false (not_faults ?_) (c.not_allocates (by simp [state]) (by simp [state]))
    simp only [connectionEvent, state, eventSentHeader_final type final]
    exact ⟨_, rfl⟩
  | sendingValue state buffer type window entry unallocated locked =>
    refine iff_of_false (not_faults ?_) (c.not_allocates (by simp [state]) (by simp [state]))
    simp only [connectionEvent, state, eventSentHeader_value type entry]
    exact ⟨_, rfl⟩
  | sendingBody state type entry unallocated locked =>
    refine iff_of_false (not_faults ?_) (c.not_allocates (by simp [state]) (by simp [state]))
    simp only [connectionEvent, state, eventSentBody_value type entry]
    exact ⟨_, rfl⟩

/- Only an allocation faults in the switch, and it frees nothing. -/
theorem connectionEvent_frees (hc : c.Valid) (hp : c.Placed) (hk : c.KeyLive w)
    (legal : c.state.receiving = true ∨ c.state.sending = true) :
    connectionEvent serverServices c w ≠ .error .invalidFree := by
  intro h
  by_cases hs : c.state = .receivingArguments
  · simp only [connectionEvent, hs] at h
    by_cases ht : c.requestType = some .get ∨ c.requestType = some .delete
    · exact not_faults (eventReceivedArguments_ok ht) ⟨_, h⟩
    · unfold eventReceivedArguments at h
      split at h
      · rename_i hget
        exact ht (Or.inl hget)
      · rename_i hdelete
        exact ht (Or.inr hdelete)
      · exact attemptMemoryWrite_fault h
      · cases h
  · have hiff := connectionEvent_faults hc hp hk legal fun hr => absurd hr hs
    obtain ⟨⟨hr | hr, -⟩, -⟩ := hiff.mp ⟨_, h⟩
    · exact hs hr
    · rw [hr] at legal
      exact absurd legal (by decide)

/-! ### Calls -/

theorem Connection.KeyLive.transferred (hk : c.KeyLive w)
    (h : connectionTransfer serverServices socket c w = .ok o) (hopen : o.result ≠ .disconnect) :
    o.connection.KeyLive o.world := by
  have hheap : o.world.system.keyBuffers = w.system.keyBuffers :=
    congrArg Prod.fst (connectionTransfer_heap_eq h hopen)
  intro n hn
  rw [connectionTransfer_keyBlock h hopen] at hn
  rw [(connectionTransfer_kept h hopen).2, hheap]
  exact hk n hn

theorem connectionProc_misfrees (hc : c.Valid) (hp : c.Placed) (hk : c.KeyLive w)
    (legal : c.state.receiving = true ∨ c.state.sending = true) :
    connectionProc serverServices socket c w = .error .invalidFree ↔
      c.flags.allocatedBuffer = true ∧ socket.failed = true := by
  have htransfer : (∃ fault, connectionTransfer serverServices socket c w = .error fault) ↔
      c.flags.allocatedBuffer = true ∧ socket.failed = true := connectionTransfer_faults hc legal
  constructor
  · intro h
    cases hcall : connectionTransfer serverServices socket c w with
    | error fault => exact htransfer.mp ⟨fault, hcall⟩
    | ok o =>
      simp only [connectionProc, hcall] at h
      split at h
      · cases h
      · rename_i success
        have hopen : o.result ≠ .disconnect := by
          rw [not_not.mp success]
          decide
        have hevent := connectionEvent_frees (connectionTransfer_valid hc hcall hopen)
          (connectionTransfer_placed hc hp hcall hopen) (hk.transferred hcall hopen)
          (by rwa [(connectionTransfer_kept hcall hopen).1])
        split at h
        · cases h
        · cases he : connectionEvent serverServices o.connection o.world with
          | error fault =>
            rw [he] at h hevent
            cases h
            exact absurd rfl hevent
          | ok o' =>
            rw [he] at h
            cases h
  · rintro ⟨hflag, hf⟩
    simp only [connectionProc, connectionTransfer_socketFailure legal hf, socketFailure_misfrees hc hflag]

theorem ConnectionCall.misfrees (hc : c.Valid) (hp : c.Placed) (hk : c.KeyLive w)
    (legal : call.Legal c) : call.run c w = .error .invalidFree ↔ call.Misfrees c := by
  cases call with
  | proc socket => exact connectionProc_misfrees hc hp hk legal
  | unblockRead =>
    refine iff_of_false (fun h => ?_) id
    simp only [run, connectionUnblockRead] at h
    split at h
    · split at h
      · cases h
      · split at h <;> cases h
    · cases h
  | unblockWrite =>
    refine iff_of_false (fun h => ?_) id
    simp only [run, connectionUnblockWrite] at h
    split at h
    · exact attemptMemoryWrite_fault h
    · cases h

theorem connectionProc_faults (hc : c.Valid) (hp : c.Placed) (hb : Base w es H F c.lock c.region)
    (hk : c.KeyLive w) (legal : c.state.receiving = true ∨ c.state.sending = true) :
    (∃ fault, connectionProc serverServices socket c w = .error fault) ↔
      (ConnectionCall.proc socket).Misfrees c ∨ (ConnectionCall.proc socket).Overruns c w := by
  have htransfer : (∃ fault, connectionTransfer serverServices socket c w = .error fault) ↔
      c.flags.allocatedBuffer = true ∧ socket.failed = true := connectionTransfer_faults hc legal
  cases hcall : connectionTransfer serverServices socket c w with
  | error fault =>
    refine iff_of_true ⟨fault, ?_⟩ (Or.inl (htransfer.mp ⟨fault, hcall⟩))
    simp only [connectionProc, hcall]
  | ok o =>
    have hfree : ¬ (ConnectionCall.proc socket).Misfrees c := fun h => by
      obtain ⟨fault, hf⟩ := htransfer.mpr h
      cases hcall.symm.trans hf
    rw [or_iff_right hfree]
    by_cases hdone : o.result = .success ∧ o.connection.remainingBytes = 0
    · obtain ⟨success, complete⟩ := hdone
      have hopen : o.result ≠ .disconnect := by rw [success]; decide
      have hreach := ConnectionCall.reached_of_transfer hcall success complete
      have hstate := (connectionTransfer_kept hcall hopen).1
      have hb' := ConnectionCall.reached_base hreach hc hp hb
      have hevent := connectionEvent_faults (connectionTransfer_valid hc hcall hopen)
        (connectionTransfer_placed hc hp hcall hopen) (hk.transferred hcall hopen)
        (by rwa [hstate]) fun _ => ⟨es, hb'.ring, Or.inl hb'.inactive⟩
      have hoverruns : (ConnectionCall.proc socket).Overruns c w ↔
          o.connection.Allocates o.world ∧ o.world.Narrow := by
        simp only [ConnectionCall.Overruns, hreach, Option.mem_some_iff, exists_eq_left']
      rw [hoverruns, ← hevent]
      simp only [connectionProc, hcall, success, complete, ne_eq, not_true_eq_false, if_false]
      cases connectionEvent serverServices o.connection o.world with
      | error fault => exact iff_of_true ⟨fault, rfl⟩ ⟨fault, rfl⟩
      | ok o' => exact iff_of_false (not_faults ⟨_, rfl⟩) (not_faults ⟨_, rfl⟩)
    · refine iff_of_false (not_faults ⟨o, ?_⟩) ?_
      · simp only [connectionProc, hcall]
        split
        · rfl
        · rename_i success
          rw [if_pos fun complete => hdone ⟨not_not.mp success, complete⟩]
      · rintro ⟨⟨c', w'⟩, hreach, -⟩
        obtain ⟨events, ht⟩ := ConnectionCall.reached_proc hreach
        cases hcall.symm.trans ht
        simp only [ConnectionCall.reached, hcall, Option.mem_def] at hreach
        split at hreach
        · rename_i complete
          exact hdone ⟨rfl, complete⟩
        · cases hreach

theorem ConnectionCall.faults (hc : c.Valid) (hp : c.Placed) (hb : Base w es H F c.lock c.region)
    (hk : c.KeyLive w) (legal : call.Legal c) :
    (∃ fault, call.run c w = .error fault) ↔ call.Misfrees c ∨ call.Overruns c w := by
  cases call with
  | proc socket => exact connectionProc_faults hc hp hb hk legal
  | unblockRead =>
    have hs : c.state = .awaitingReadUnblock := legal
    obtain ⟨p, -, hentry, -⟩ := hc.awaitingReadUnblock hs
    refine iff_of_false (not_faults ?_) ?_
    · simp only [run, connectionUnblockRead, if_pos hs, hentry]
      split <;> exact ⟨_, rfl⟩
    · rintro (hfree | ⟨⟨c', w'⟩, hreach, hover⟩)
      · cases hfree
      · cases hreach
        exact c.not_allocates (by simp [hs]) (by simp [hs]) hover
  | unblockWrite =>
    have hs : c.state = .awaitingWriteUnblock := legal
    have hwrite := attemptMemoryWrite_faults (c := c) hb.ring (Or.inl hb.inactive)
    have hput := (hc.awaitingWriteUnblock hs).1
    simp only [run, connectionUnblockWrite, if_pos hs]
    rw [hwrite]
    constructor
    · rintro ⟨hsize, hnarrow⟩
      exact Or.inr ⟨(c, w), rfl, ⟨Or.inr hs, hput, hsize⟩, hnarrow⟩
    · rintro (hfree | ⟨⟨c', w'⟩, hreach, ⟨-, -, hsize⟩, hnarrow⟩)
      · cases hfree
      · cases hreach
        exact ⟨hsize, hnarrow⟩

end

/-! ### Runs -/

section
variable {hash : List UInt8 → Nat} {capacityBytes : Nat} {memory : Memory} {s : Connections}
  {i : Nat} {c : Connection} {call : ConnectionCall}

theorem Connections.HeapExact.keyLive (h : s.HeapExact) (hc : s.get i = some c) : c.KeyLive s.world :=
  fun n hn => ⟨h.entry i c n hc hn, (h.live n).mpr ⟨i, c, hc, hn⟩⟩

/-- In every state of the server: the blocks that are not freed are those of the keys that are being
received, each of one connection, and free() is handed anything else exactly where a socket fails
while the flag of the key buffer is set. -/
theorem heap_exact {server : Server} (h : Server.Reachable hash capacityBytes memory server) :
    server.world.system.keyBuffers.Nodup ∧
    (∀ n, n ∈ server.world.system.keyBuffers ↔
      ∃ i c, server.connections i = some c ∧ c.keyBlock = some n) ∧
    (∀ i j c c' n, server.connections i = some c → server.connections j = some c' →
      c.keyBlock = some n → c'.keyBlock = some n → i = j) ∧
    ∀ i c call, server.connections i = some c → ConnectionCall.Legal call c →
      (call.run c server.world = .error .invalidFree ↔ call.Misfrees c) := by
  have hexact := h.heapExact
  refine ⟨hexact.nodup, hexact.live, hexact.distinct, fun i c call hc legal => ?_⟩
  obtain ⟨hvalid, hplaced⟩ := hexact.connection i c hc
  exact call.misfrees hvalid hplaced (hexact.keyLive hc) legal

/-- What ends a careful run: a socket that fails while the flag of the key buffer is set, where
free() is handed an interior pointer, or an allocation where the marker does not fit. What recv and
send are handed lies in the buffer that it belongs to. -/
theorem call_faults_iff (hcap : capacityBytes < 2 ^ 64)
    (run : CarefulRun hash capacityBytes memory s) (hc : s.get i = some c) (legal : call.Legal c) :
    ((∃ fault, call.run c s.world = .error fault) ↔ call.Misfrees c ∨ call.Overruns c s.world) ∧
      (c.state.receiving = true ∨ c.state.sending = true → c.WindowInside s.world) := by
  obtain ⟨es, howned⟩ := run.owned hcap
  refine ⟨?_, howned.windowInside run.heapExact (run.streaming hcap) hc⟩
  obtain ⟨hvalid, hplaced⟩ := howned.connection i c hc
  have hbase := howned.base i
  rw [Connections.lock_eq hc, Connections.region_eq hc] at hbase
  exact call.faults hvalid hplaced hbase (run.heapExact.keyLive hc) legal

end

/- The socket fails while a key is received. -/
theorem heap_exact_asking : ∃ s, Server.Reachable ByteArea.decodeLE 64 (fun _ _ => 0) s ∧
    s.world.system.keyBuffers = [0] ∧ ∃ i c, s.connections i = some c ∧ c.keyBlock = some 0 ∧
      (i = 0 → (ConnectionCall.proc ⟨[], false, 0, true⟩).run c s.world = .error .invalidFree) := by
  have hrun : (run 1 [connects 0, receives 0 [1, 0, 1, 1], receives 0 [1, 0]] smallServer).Gives
      fun s => s.world.system.keyBuffers = [0] ∧
        ∀ c ∈ s.connections 0, c.state = .receivingBody ∧ c.flags.allocatedBuffer = true := by
    decide +kernel
  obtain ⟨s, hs, hbuffers, hasking⟩ := hrun
  have hreach := run_reachable .opened hs
  obtain ⟨-, hlive, -, hfrees⟩ := heap_exact hreach
  obtain ⟨i, c, hc, hblock⟩ := (hlive 0).mp (by rw [hbuffers]; decide)
  refine ⟨s, hreach, hbuffers, i, c, hc, hblock, ?_⟩
  rintro rfl
  obtain ⟨hstate, hflag⟩ := hasking c hc
  have legal : (ConnectionCall.proc ⟨[], false, 0, true⟩).Legal c := by
    refine Or.inl ?_
    rw [hstate]
    rfl
  exact (hfrees 0 c _ hc legal).mpr ⟨hflag, rfl⟩

/-- `PUT` with an entry up to the last four bytes of the ring, and the header of another one. -/
def fillsRing : List Action :=
  [.accept 5 (fun _ => 0) fun _ => 0, receiving 0 [1, 0, 1, 2], receiving 0 [4, 0, 40, 0, 0, 0],
    receiving 0 (List.replicate 44 97), sending 0 1, receiving 0 [1, 0, 1, 2]]

theorem call_faults_iff_full :
    (∃ s c, CarefulRun ByteArea.decodeLE 64 (fun _ _ => 0) s ∧ s.get 0 = some c ∧
      c.WindowInside s.world ∧ ∃ fault,
        (ConnectionCall.proc ⟨[1, 0, 1, 0, 0, 0], false, 0, false⟩).run c s.world = .error fault) ∧
    ∃ s c, CarefulRun ByteArea.decodeLE 64 (fun _ _ => 0) s ∧ s.get 1 = some c ∧
      c.region = some ⟨18, 1, 1⟩ ∧ c.WindowInside s.world := by
  constructor
  · have hrun : ∃ s ∈ guardedly Connections.Careful fillsRing smallConnections, ∃ c ∈ s.get 0,
        c.state = .receivingArguments ∧
          ∃ r ∈ (ConnectionCall.proc ⟨[1, 0, 1, 0, 0, 0], false, 0, false⟩).reached c s.world,
            r.1.Allocates r.2 ∧
              r.2.system.queue.capacityBytes < r.2.system.queue.writeIndex + entryHeaderSize := by
      decide +kernel
    obtain ⟨s, hs, c, hc, hstate, hover⟩ := hrun
    have run : CarefulRun ByteArea.decodeLE 64 (fun _ _ => 0) s := guardedly_run .opened hs
    have hreceiving : c.state.receiving = true := by
      rw [hstate]
      rfl
    have legal : (ConnectionCall.proc ⟨[1, 0, 1, 0, 0, 0], false, 0, false⟩).Legal c :=
      Or.inl hreceiving
    obtain ⟨hfaults, hwindow⟩ := call_faults_iff (by decide) run hc legal
    exact ⟨s, c, run, hc, hwindow (Or.inl hreceiving), hfaults.mpr (Or.inr hover)⟩
  · obtain ⟨s, run, -, hregion⟩ := sharesRing_run
    obtain ⟨c, hc, hr⟩ := Option.bind_eq_some_iff.mp hregion
    have hreceiving : c.state.receiving = true := by
      have hstate : c.state = .receivingBody := by
        by_contra hs
        rw [region_eq_none_of_state hs] at hr
        cases hr
      rw [hstate]
      rfl
    have legal : (ConnectionCall.proc ⟨[98], false, 0, false⟩).Legal c := Or.inl hreceiving
    exact ⟨s, c, run, hc, hr, (call_faults_iff (by decide) run hc legal).2 (Or.inl hreceiving)⟩

end CacheServer
