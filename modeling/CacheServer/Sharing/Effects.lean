import CacheServer.Model.Server
import CacheServer.Sharing.Ownership

/-!
# What a call of connection.c does to the ring

A call fills a part of the connection's region, allocates, takes or gives back
a lock, or changes the index. `Effect` lists these, with all that each may do;
the rest of the development asks no more of connection.c.
-/

namespace CacheServer
open EntryHeader

/-- What the connection still has after the call. -/
def Outcome.lock (o : Outcome System) : Option Pointer :=
  if o.result = .disconnect then none else o.connection.lock

def Outcome.region (o : Outcome System) : Option Slot :=
  if o.result = .disconnect then none else o.connection.region

/-- The entry that a completed key, or a retried read, leads to. -/
def Connection.target (c : Connection) (w : World System) : Option Pointer :=
  match c.entryHeader with
  | none => none
  | some p =>
    if c.state = .awaitingReadUnblock ∧ active w.memory p ≠ 0 then some p
    else entryHashMapGet w.system.hashmap w.memory p

/-- The body of a PUT goes into the ring, a key into a buffer of its own. -/
def Connection.Placed (c : Connection) : Prop :=
  c.state = .receivingBody → ∀ p, c.entryHeader = some p →
    (c.requestType = some .put ↔ p.block = .ring)

/-- The block from malloc that a connection is filling. -/
def Connection.keyBlock (c : Connection) : Option Nat :=
  match c.state, c.entryHeader with
  | .receivingBody, some ⟨.key n, _⟩ => some n
  | _, _ => none

/-- The call writes to no block that malloc has given to others. -/
structure KeysKept (c : Connection) (w : World System) (o : Outcome System) : Prop where
  malloced : w.system.malloced ≤ o.world.system.malloced
  memory : ∀ n < w.system.malloced, c.keyBlock ≠ some n →
    o.world.memory (.key n) = w.memory (.key n)

/-- The region that an allocation has handed out. -/
def handedOut (keySize valueSize : Nat) : MemoryQueueResult → Option Pointer → Option Slot
  | .outOfMemory, _ | .writeBlocked, _ | _, none => none
  | _, some p => some ⟨p.offset, keySize, valueSize⟩

/-- The entry that an event hands out or puts into the index. -/
def Event.entry : Event → Option Pointer
  | .allocated p | .stored _ _ p => some p
  | _ => none

def named (events : List Event) : List Pointer := events.filterMap Event.entry

/-- The key that a DELETE takes out of the index. -/
def Event.deletedKey : Event → Option (List UInt8)
  | .executed ⟨.delete, key, _⟩ => some key
  | _ => none

/-- The events change nothing about entries and the index. -/
structure Silent (events : List Event) : Prop where
  named : named events = []
  deleted : events.filterMap Event.deletedKey = []

/-- The events of a completed DELETE. -/
def deleteEvents (c : Connection) (w : World System) (p : Pointer) : List Event :=
  [.executed (requestOf .delete c w.memory p), .freed (.memory p)]

/-- The events of a completed PUT; the index may run out of memory. -/
def putEvents (c : Connection) (w : World System) (p : Pointer) : List Event :=
  .executed (requestOf .put c w.memory p) ::
    if w.system.answers.hashmapOom then []
    else [.stored (requestOf .put c w.memory p).key (requestOf .put c w.memory p).value p]

/-- What a transfer does to the ring. -/
inductive Transferred (c : Connection) (w : World System) (o : Outcome System) : Prop
  | quiet (ring : o.world.memory .ring = w.memory .ring)
      (queue : o.world.system.queue = w.system.queue)
      (hashmap : o.world.system.hashmap = w.system.hashmap) (lock : o.lock = c.lock)
      (region : o.region = c.region ∨ o.result = .disconnect) (silent : Silent o.events)
      (idle : c.region ≠ none → o.result = .disconnect ∨ o.connection = c ∧ o.events = [])
      (keys : KeysKept c w o)
  | filled {e : Slot} {bytes : List UInt8} (region : c.region = some e)
      (window : c.bufferIndex + bytes.length ≤ e.keySize + e.valueSize)
      (world : o.world =
        { w with memory := w.memory.write (ringPointer (e.offset + 16 + c.bufferIndex)) bytes })
      (lock : o.lock = c.lock) (kept : o.region = some e)
      (events : o.events = [.received bytes])
      (index : o.connection.bufferIndex = c.bufferIndex + bytes.length)
  | released {p : Pointer} (held : c.lock = some p) (region : c.region = none)
      (world : o.world = { w with memory := (entryHeaderReleaseLock w.memory p).2 })
      (lock : o.lock = none) (dropped : o.region = none) (silent : Silent o.events)

/-- What a completed transfer, or a retry, does to it. -/
inductive Effect (c : Connection) (w : World System) (o : Outcome System) : Prop
  | transferred (same : Transferred c w o)
  | allocated {result : MemoryQueueResult} {p : Option Pointer} {s' : Store} (expiry : Nat)
      (state : c.state = .receivingArguments ∨ c.state = .awaitingWriteUnblock)
      (type : c.requestType = some .put) (free : c.lock = none ∧ c.region = none)
      (call : memoryQueueAllocate w.store c.keySize c.valueSize expiry c.entryHeader =
        .ok (result, p, s'))
      (world : o.world = w.withStore s') (lock : o.lock = none)
      (region : o.region = handedOut c.keySize c.valueSize result p)
      (events : o.events =
        ((handedOut c.keySize c.valueSize result p).map fun e => Event.allocated e.pointer).toList)
      (index : o.region = none ∨ o.connection.bufferIndex = 0)
  | acquired {p : Pointer} (state : c.state = .receivingBody ∨ c.state = .awaitingReadUnblock)
      (type : c.requestType = some .get) (free : c.lock = none ∧ c.region = none)
      (target : c.target w = some p) (available : locks w.memory p ≠ entryHeaderLockCapacity)
      (ring : o.world.memory = setLocks w.memory p (locks w.memory p + 1))
      (queue : o.world.system.queue = w.system.queue)
      (hashmap : o.world.system.hashmap = w.system.hashmap) (lock : o.lock = some p)
      (region : o.region = none) (silent : Silent o.events)
      (malloced : w.system.malloced ≤ o.world.system.malloced)
  | stored {p : Pointer} {e : Slot} (state : c.state = .receivingBody)
      (type : c.requestType = some .put) (entry : c.entryHeader = some p) (region : c.region = some e)
      (free : c.lock = none) (complete : c.bufferIndex = (e.keySize + e.valueSize) % 2 ^ 32)
      (world : o.world = (serverServices.entryHashMapPut p w).2) (lock : o.lock = none)
      (dropped : o.region = none) (responds : o.connection.state = .sendingHeader)
      (events : o.events = putEvents c w p)
  | deleted {p : Pointer} (state : c.state = .receivingBody) (type : c.requestType = some .delete)
      (entry : c.entryHeader = some p) (free : c.lock = none ∧ c.region = none)
      (ring : o.world.memory = (serverServices.entryHashMapDelete p w).memory)
      (queue : o.world.system.queue = w.system.queue)
      (hashmap : o.world.system.hashmap = (serverServices.entryHashMapDelete p w).system.hashmap)
      (lock : o.lock = none) (region : o.region = none) (events : o.events = deleteEvents c w p)
      (malloced : w.system.malloced ≤ o.world.system.malloced)

/-! ### Transfers -/

section
variable {c : Connection} {w : World System} {o : Outcome System} {socket : Socket}

theorem region_eq_none_of_state (h : c.state ≠ .receivingBody) : c.region = none := by
  unfold Connection.region
  split
  · rename_i hs _ _
    exact absurd hs h
  · rfl

theorem region_eq_none_of_type (h : c.requestType ≠ some .put) : c.region = none := by
  unfold Connection.region
  split
  · rename_i _ ht _
    exact absurd ht h
  · rfl

theorem region_eq_some {p : Pointer} (hs : c.state = .receivingBody) (ht : c.requestType = some .put)
    (he : c.entryHeader = some p) (hp : p.block = .ring) :
    c.region = some ⟨p.offset, c.keySize, c.valueSize⟩ := by
  obtain ⟨block, offset⟩ := p
  cases hp
  unfold Connection.region
  rw [hs, ht, he]

theorem region_pointer {e : Slot} {p : Pointer} (h : c.region = some e)
    (hp : c.entryHeader = some p) : e.pointer = p := by
  unfold Connection.region at h
  split at h
  · rename_i he
    cases h
    exact Option.some.inj (he.symm.trans hp)
  · cases h

theorem region_sizes {e : Slot} (h : c.region = some e) :
    c.keySize = e.keySize ∧ c.valueSize = e.valueSize := by
  unfold Connection.region at h
  split at h <;> cases h
  exact ⟨rfl, rfl⟩

theorem eq_of_mem_putEvents {p q : Pointer} (h : q ∈ named (putEvents c w p)) : q = p := by
  unfold putEvents at h
  split at h
  · cases h
  · exact List.mem_singleton.mp h

theorem lock_eq_none (h : c.flags.lockAcquired = false) : c.lock = none := by
  unfold Connection.lock
  rw [h]
  rfl

theorem lock_eq_some {p : Pointer} (h : c.flags.lockAcquired = true) (he : c.entryHeader = some p) :
    c.lock = some p := by
  unfold Connection.lock
  rw [if_pos h, he]

theorem Outcome.lock_eq (h : o.result ≠ .disconnect) : o.lock = o.connection.lock := if_neg h

theorem Outcome.region_eq (h : o.result ≠ .disconnect) : o.region = o.connection.region := if_neg h

theorem Outcome.lock_disconnect (h : o.result = .disconnect) : o.lock = none := if_pos h

theorem Outcome.region_disconnect (h : o.result = .disconnect) : o.region = none := if_pos h

theorem KeysKept.of_memory (memory : o.world.memory = w.memory)
    (malloced : w.system.malloced ≤ o.world.system.malloced) : KeysKept c w o :=
  ⟨malloced, fun n _ _ => congrFun memory (.key n)⟩

/-- Nothing but the connection itself, the clock or its own key buffer has changed. -/
theorem Transferred.of_unlocked (ring : o.world.memory .ring = w.memory .ring)
    (queue : o.world.system.queue = w.system.queue)
    (hashmap : o.world.system.hashmap = w.system.hashmap) (hc : c.lock = none) (ho : o.lock = none)
    (hr : (c.region = none ∧ o.region = none) ∨ o.result = .disconnect)
    (silent : Silent o.events) (keys : KeysKept c w o) : Transferred c w o := by
  refine .quiet ring queue hashmap (ho.trans hc.symm) ?_ silent (fun hregion => Or.inl ?_) keys
  · exact hr.imp_left fun h => h.2.trans h.1.symm
  · exact hr.resolve_left fun h => hregion h.1

theorem Effect.of_unlocked (ring : o.world.memory .ring = w.memory .ring)
    (queue : o.world.system.queue = w.system.queue)
    (hashmap : o.world.system.hashmap = w.system.hashmap) (hc : c.lock = none ∧ c.region = none)
    (ho : o.lock = none) (hr : o.region = none) (silent : Silent o.events)
    (keys : KeysKept c w o) : Effect c w o :=
  .transferred (.of_unlocked ring queue hashmap hc.1 ho (Or.inl ⟨hc.2, hr⟩) silent keys)

theorem storeReceived_lock (c : Connection) (w : World System) (bytes : List UInt8) (n : Nat) :
    (advance (storeReceived c w bytes).1 n).lock = c.lock := by
  unfold storeReceived
  split <;> rfl

/- free takes neither a header nor a pointer behind one. -/
theorem freeKey_allocated (hc : c.Valid) (ha : c.flags.allocatedBuffer = true) :
    serverServices.free c.buffer w = .error .invalidFree := by
  obtain ⟨hphase, -⟩ := hc
  cases hphase with
  | @receivingBody t p state buffer =>
    rw [buffer]
    obtain ⟨block, offset⟩ := p
    cases block <;> rfl
  | sendingHeader state buffer =>
    rw [buffer]
    rfl
  | receivingHeader state buffer window entry flags =>
    rw [flags] at ha
    cases ha
  | receivingArguments state buffer type payload window entry unallocated
  | awaitingWriteUnblock state type unallocated
  | awaitingReadUnblock state type entry unallocated
  | sendingValue state buffer type window entry unallocated
  | sendingBody state type entry unallocated =>
    rw [unallocated] at ha
    cases ha

/- A lock is held while a value is sent. -/
theorem Connection.Valid.sending_of_lock (hc : c.Valid) (hl : c.flags.lockAcquired = true) :
    c.state ≠ .receivingBody ∧ ∃ p, c.entryHeader = some p := by
  obtain ⟨hphase, -⟩ := hc
  cases hphase with
  | sendingValue state buffer type window entry | sendingBody state type entry =>
    exact ⟨by rw [state]; decide, _, entry⟩
  | receivingHeader state buffer window entry flags =>
    rw [flags] at hl
    cases hl
  | receivingArguments state buffer type payload window entry unallocated unlocked
  | receivingBody state buffer type payload window entry allocated unlocked
  | awaitingWriteUnblock state type unallocated unlocked
  | awaitingReadUnblock state type entry unallocated unlocked
  | sendingHeader state buffer type final window unlocked =>
    rw [unlocked] at hl
    cases hl

theorem socketFailure_effect (hc : c.Valid) (h : socketFailure serverServices c w = .ok o) :
    Transferred c w o := by
  have hresult := socketFailure_result h
  unfold socketFailure at h
  cases ha : c.flags.allocatedBuffer with
  | true =>
    rw [ha, if_pos rfl, freeKey_allocated hc ha] at h
    cases h
  | false =>
    simp only [ha, Bool.false_eq_true, if_false] at h
    cases hl : c.flags.lockAcquired with
    | true =>
      obtain ⟨hs, p, hp⟩ := hc.sending_of_lock hl
      rw [hl, if_pos rfl, hp] at h
      refine .released (lock_eq_some hl hp) (region_eq_none_of_state hs) ?_
        (o.lock_disconnect hresult) (o.region_disconnect hresult) ?_
      · cases h
        rfl
      · cases h
        exact ⟨rfl, rfl⟩
    | false =>
      rw [hl] at h
      cases h
      exact .of_unlocked rfl rfl rfl (lock_eq_none hl) rfl (Or.inr rfl) ⟨rfl, rfl⟩ (.of_memory rfl le_rfl)

theorem received_effect (hc : c.Valid) (hp : c.Placed) {bytes : List UInt8}
    (hr : c.state.receiving = true) (hle : bytes.length ≤ c.remainingBytes) :
    Transferred c w ⟨.success, advance (storeReceived c w bytes).1 bytes.length,
      (storeReceived c w bytes).2, [.received bytes]⟩ := by
  have hlock := storeReceived_lock c w bytes bytes.length
  obtain ⟨hphase, he⟩ := hc
  cases hphase with
  | receivingHeader state buffer | receivingArguments state buffer =>
    have hregion : (advance (storeReceived c w bytes).1 bytes.length).region = none :=
      region_eq_none_of_state (by
        show (storeReceived c w bytes).1.state ≠ _
        rw [storeReceived_state, state]
        decide)
    have hfree : c.region = none := region_eq_none_of_state (by rw [state]; decide)
    have hworld : (storeReceived c w bytes).2 = w := by simp only [storeReceived, buffer]
    refine .quiet ?_ ?_ ?_ hlock (Or.inl (hregion.trans hfree.symm)) ⟨rfl, rfl⟩
        (fun h => absurd hfree h) (.of_memory ?_ ?_) <;>
      simp only [hworld, le_refl]
  | @receivingBody t p state buffer type payload window entry =>
    simp only [storeReceived, buffer] at hlock ⊢
    by_cases ht : t = .put
    · subst ht
      have hring : p.block = .ring := (hp state p entry).mp type
      have hregion := region_eq_some state type entry hring
      have hpointer : (p.add entryHeaderSize).add c.bufferIndex =
          ringPointer (p.offset + 16 + c.bufferIndex) := by
        obtain ⟨block, offset⟩ := p
        cases hring
        rfl
      rw [hpointer]
      refine .filled hregion ?_ rfl hlock hregion rfl rfl
      have hmod := Nat.mod_le (c.keySize + c.valueSize) (2 ^ 32)
      have hwindow : c.bufferIndex + c.remainingBytes = (c.keySize + c.valueSize) % 2 ^ 32 := window
      show c.bufferIndex + bytes.length ≤ c.keySize + c.valueSize
      omega
    · have hput : c.requestType ≠ some .put := by
        rw [type]
        exact fun h => ht (Option.some.inj h)
      have hkey : p.block ≠ .ring := fun h => hput ((hp state p entry).mpr h)
      have hregion : (advance c bytes.length).region = none :=
        region_eq_none_of_type (c := advance c bytes.length) hput
      refine .quiet ?_ rfl rfl hlock (Or.inl (hregion.trans (region_eq_none_of_type hput).symm)) ⟨rfl, rfl⟩
        (fun h => absurd (region_eq_none_of_type hput) h) ⟨le_rfl, fun n _ hn => ?_⟩
      · exact Memory.update_other _ _ (Ne.symm hkey)
      · refine Memory.update_other _ _ fun hblock => hn ?_
        obtain ⟨block, offset⟩ := p
        cases hblock
        simp only [Connection.keyBlock, state, entry]
  | awaitingWriteUnblock state | awaitingReadUnblock state | sendingHeader state
  | sendingValue state | sendingBody state =>
    rw [state] at hr
    cases hr

theorem connectionTransfer_effect (hc : c.Valid) (hp : c.Placed)
    (h : connectionTransfer serverServices socket c w = .ok o) : Transferred c w o := by
  have hreturns := connectionTransfer_returns h
  cases hreturns with
  | idle =>
    exact .quiet rfl rfl rfl rfl (Or.inl rfl) ⟨rfl, rfl⟩ (fun _ => Or.inr ⟨rfl, rfl⟩) (.of_memory rfl le_rfl)
  | failed _ failure => exact socketFailure_effect hc failure
  | received bytes state some le => exact received_effect hc hp state le
  | sent bytes state some le =>
    have hs : c.state ≠ .receivingBody := fun hs => by
      rw [hs] at state
      cases state
    have hsent : (advance c bytes.length).region = none := region_eq_none_of_state hs
    exact .quiet rfl rfl rfl rfl (Or.inl (hsent.trans (region_eq_none_of_state hs).symm)) ⟨rfl, rfl⟩
      (fun h => absurd (region_eq_none_of_state hs) h) (.of_memory rfl le_rfl)

theorem connectionTransfer_placed (hc : c.Valid) (hp : c.Placed)
    (h : connectionTransfer serverServices socket c w = .ok o) (hopen : o.result ≠ .disconnect) :
    o.connection.Placed := by
  have hreturns := connectionTransfer_returns h
  cases hreturns with
  | idle => exact hp
  | failed _ _ closed => exact absurd closed hopen
  | received bytes state some le =>
    intro hs
    have hs' : c.state = .receivingBody := (storeReceived_state c w bytes).symm.trans hs
    obtain ⟨t, p, buffer, -⟩ := hc.receivingBody hs'
    simp only [storeReceived, buffer]
    exact hp hs'
  | sent bytes state some le => exact hp

/-! ### Events -/

theorem allocateAt_pointer {s s' : Store} {p : Pointer} {p' : Option Pointer} {k v expiry : Nat}
    {result : MemoryQueueResult} (h : allocateAt s p k v expiry = .ok (result, p', s')) : p' = some p := by
  unfold allocateAt accessHeader at h
  simp only at h
  split at h
  · cases h
  · split at h
    · cases h
      rfl
    · split at h <;> cases h
      rfl

/- What is handed out lies in the ring. -/
theorem memoryQueueAllocate_pointer {s s' : Store} {p p' : Option Pointer} {k v expiry : Nat}
    {result : MemoryQueueResult} (h : memoryQueueAllocate s k v expiry p = .ok (result, p', s'))
    (hresult : result ≠ .outOfMemory) : ∃ n, p' = some (ringPointer n) := by
  unfold memoryQueueAllocate accessHeader at h
  simp only at h
  split at h
  · cases h
    exact absurd rfl hresult
  · split at h
    · split at h
      · cases h
      · split at h
        · cases h
          exact ⟨_, rfl⟩
        · split at h
          · exact ⟨_, allocateAt_pointer h⟩
          · cases h
    · exact ⟨_, allocateAt_pointer h⟩

theorem finishRequest_free (c : Connection) (w : World System) (events : List Event) :
    ((finishRequest c w).after events).lock = none ∧
      ((finishRequest c w).after events).region = none ∧
      ((finishRequest c w).after events).world = w ∧
      ((finishRequest c w).after events).events = events := by
  unfold finishRequest
  split <;> exact ⟨rfl, rfl, rfl, List.append_nil _⟩

theorem attemptMemoryRead_effect (d : Connection) (u : World System)
    (state : c.state = .receivingBody ∨ c.state = .awaitingReadUnblock)
    (type : c.requestType = some .get) (free : c.lock = none ∧ c.region = none)
    (hl : d.flags.lockAcquired = false) (target : d.entryHeader = c.target w)
    (memory : u.memory = w.memory) (queue : u.system.queue = w.system.queue)
    (hashmap : u.system.hashmap = w.system.hashmap) {events : List Event}
    (silent : Silent events) (malloced : w.system.malloced ≤ u.system.malloced) :
    Effect c w ((attemptMemoryRead d u).after events) := by
  have hsilent : Silent ((attemptMemoryRead d u).after events).events := by
    show Silent (events ++ (attemptMemoryRead d u).events)
    rw [attemptMemoryRead_events, List.append_nil]
    exact silent
  revert hsilent
  unfold attemptMemoryRead
  split
  · exact fun silent => .of_unlocked (congrFun memory _) queue hashmap free (lock_eq_none hl) rfl silent
      (.of_memory memory malloced)
  · rename_i p hp
    unfold entryHeaderAcquireLock
    by_cases hfull : locks u.memory p = entryHeaderLockCapacity
    · rw [if_pos hfull]
      exact fun silent => .of_unlocked (congrFun memory _) queue hashmap free (lock_eq_none hl) rfl
        silent (.of_memory memory malloced)
    · rw [if_neg hfull]
      rw [memory] at hfull
      refine fun silent => .acquired state type free (target.symm.trans hp) hfull ?_ queue hashmap hp
        rfl silent malloced
      show setLocks u.memory p (locks u.memory p + 1) = _
      rw [memory]

theorem attemptMemoryWrite_effect
    (state : c.state = .receivingArguments ∨ c.state = .awaitingWriteUnblock)
    (ht : c.requestType = some .put) (hl : c.flags.lockAcquired = false)
    (h : attemptMemoryWrite serverServices c w = .ok o) : Effect c w o := by
  have free : c.lock = none ∧ c.region = none := by
    refine ⟨lock_eq_none hl, region_eq_none_of_state fun hs => ?_⟩
    rcases state with hstate | hstate <;> rw [hs] at hstate <;> cases hstate
  unfold attemptMemoryWrite at h
  simp only [serverServices] at h
  generalize hcall : memoryQueueAllocate w.store c.keySize c.valueSize _ c.entryHeader = r at h
  cases r with
  | error fault => cases h
  | ok r =>
    obtain ⟨result, p, s'⟩ := r
    cases result with
    | outOfMemory | writeBlocked =>
      cases h
      exact .allocated _ state ht free hcall rfl (lock_eq_none hl) rfl rfl (Or.inl rfl)
    | success | none =>
      cases p with
      | none => cases h
      | some p =>
        cases h
        obtain ⟨n, hn⟩ := memoryQueueAllocate_pointer hcall (by decide)
        cases hn
        refine .allocated _ state ht free hcall rfl (lock_eq_none hl) ?_ rfl (Or.inr rfl)
        exact region_eq_some rfl ht rfl rfl

theorem eventReceivedHeader_effect (state : c.state = .receivingHeader)
    (hf : c.flags = ⟨false, false, false⟩) : Effect c w (eventReceivedHeader c w) := by
  have hlock : c.lock = none := lock_eq_none (by rw [hf])
  have free : c.lock = none ∧ c.region = none :=
    ⟨hlock, region_eq_none_of_state (by rw [state]; decide)⟩
  unfold eventReceivedHeader
  split
  · exact .of_unlocked rfl rfl rfl free hlock rfl ⟨rfl, rfl⟩ (.of_memory rfl le_rfl)
  · have hkept : (if c.requestFlags % 2 = 1
        then { c with flags := { c.flags with keepAlive := true } } else c).lock = none := by
      split <;> exact hlock
    generalize (if c.requestFlags % 2 = 1
      then { c with flags := { c.flags with keepAlive := true } } else c) = c' at hkept
    simp only
    split <;> exact .of_unlocked rfl rfl rfl free hkept rfl ⟨rfl, rfl⟩ (.of_memory rfl le_rfl)

theorem mallocKey_frame {size : Nat} {w' : World System} {p : Option Pointer}
    (h : serverServices.malloc size w = (p, w')) :
    w'.memory = w.memory ∧ w'.system.queue = w.system.queue ∧
      w'.system.hashmap = w.system.hashmap ∧ w.system.malloced ≤ w'.system.malloced ∧
      ∀ q, p = some q → q = ⟨.key w.system.malloced, 0⟩ := by
  simp only [serverServices, mallocKey] at h
  split at h <;> cases h
  · exact ⟨rfl, rfl, rfl, le_rfl, fun q hq => by cases hq⟩
  · refine ⟨rfl, rfl, rfl, Nat.le_succ _, fun q hq => ?_⟩
    cases hq
    rfl

theorem freeKey_frame {b : Buffer} {w' : World System} (h : serverServices.free b w = .ok w') :
    w'.memory = w.memory ∧ w'.system.queue = w.system.queue ∧
      w'.system.hashmap = w.system.hashmap ∧ w'.system.malloced = w.system.malloced := by
  simp only [serverServices] at h
  unfold freeKey at h
  split at h
  · split at h <;> cases h
    exact ⟨rfl, rfl, rfl, rfl⟩
  · cases h

theorem malloced_effect (state : c.state = .receivingArguments) (ht : c.requestType ≠ some .put)
    (hl : c.flags.lockAcquired = false) {size : Nat} {p : Pointer} {w' : World System}
    (h : serverServices.malloc size w = (some p, w')) : Effect c w ⟨.success, { c with
      entryHeader := some p
      flags := { c.flags with allocatedBuffer := true }
      buffer := .memory (p.add entryHeaderSize)
      remainingBytes := c.keySize
      bufferIndex := 0
      state := .receivingBody }, { w' with memory := setKeySize w'.memory p c.keySize },
        [.malloced p]⟩ := by
  obtain ⟨hm, hq, hh, hmalloced, hp⟩ := mallocKey_frame h
  obtain rfl := hp p rfl
  have free : c.lock = none ∧ c.region = none :=
    ⟨lock_eq_none hl, region_eq_none_of_state (by rw [state]; decide)⟩
  refine .of_unlocked ?_ hq hh free (lock_eq_none hl) ?_ ⟨rfl, rfl⟩ ⟨hmalloced, fun n hn _ => ?_⟩
  · change setKeySize w'.memory ⟨.key w.system.malloced, 0⟩ c.keySize .ring = w.memory .ring
    have hne : Block.ring ≠ .key w.system.malloced := by simp
    rw [hm]
    exact store_other _ _ _ _ _ hne
  · exact region_eq_none_of_type ht
  · change setKeySize w'.memory ⟨.key w.system.malloced, 0⟩ c.keySize (.key n) = w.memory (.key n)
    have hne : Block.key n ≠ .key w.system.malloced := by simpa using hn.ne
    rw [hm]
    exact store_other _ _ _ _ _ hne

theorem eventReceivedArguments_effect (state : c.state = .receivingArguments)
    (hl : c.flags.lockAcquired = false) (h : eventReceivedArguments serverServices c w = .ok o) :
    Effect c w o := by
  have free : c.lock = none ∧ c.region = none :=
    ⟨lock_eq_none hl, region_eq_none_of_state (by rw [state]; decide)⟩
  unfold eventReceivedArguments at h
  split at h
  · rename_i ht
    split at h
    · rename_i hcall
      obtain ⟨hm, hq, hh, hmalloced, -⟩ := mallocKey_frame hcall
      cases h
      exact .of_unlocked (congrFun hm _) hq hh free (lock_eq_none hl) rfl ⟨rfl, rfl⟩
        (.of_memory hm hmalloced)
    · rename_i hcall
      cases h
      exact malloced_effect state (by rw [ht]; decide) hl hcall
  · rename_i ht
    split at h
    · rename_i hcall
      obtain ⟨hm, hq, hh, hmalloced, -⟩ := mallocKey_frame hcall
      cases h
      exact .of_unlocked (congrFun hm _) hq hh free (lock_eq_none hl) rfl ⟨rfl, rfl⟩
        (.of_memory hm hmalloced)
    · rename_i hcall
      cases h
      exact malloced_effect state (by rw [ht]; decide) hl hcall
  · rename_i ht
    exact attemptMemoryWrite_effect (Or.inl state) ht hl h
  · cases h

theorem entryHashMapPut_result {p : Pointer} :
    (serverServices.entryHashMapPut p w).1 = w.system.answers.hashmapOom := by
  simp only [serverServices, entryHashMapPut, Hashmap.set]
  cases w.system.answers.hashmapOom with
  | true => rfl
  | false =>
    simp only [Bool.false_eq_true, if_false]
    split
    · rfl
    · rfl

theorem target_of_body {p : Pointer} (hs : c.state = .receivingBody) (hp : c.entryHeader = some p) :
    c.target w = serverServices.entryHashMapGet p w := by
  unfold Connection.target
  rw [hp]
  simp only [hs]
  exact if_neg fun h => by cases h.1

theorem eventReceivedBody_effect (hc : c.Valid) (hp : c.Placed) (state : c.state = .receivingBody)
    (hzero : c.remainingBytes = 0) (h : eventReceivedBody serverServices c w = .ok o) :
    Effect c w o := by
  obtain ⟨t, p, buffer, type, payload, window, entry, unlocked⟩ := hc.receivingBody state
  have hlock : c.lock = none := lock_eq_none unlocked
  unfold eventReceivedBody at h
  cases t with
  | get =>
    rw [type, entry] at h
    simp only at h
    split at h
    · cases h
    · rename_i w' hfree
      obtain ⟨hm, hq, hh, hmalloced⟩ := freeKey_frame hfree
      cases h
      refine attemptMemoryRead_effect { c with
        flags := { c.flags with allocatedBuffer := false }
        entryHeader := serverServices.entryHashMapGet p w } w' (Or.inl state) type ⟨hlock, ?_⟩ unlocked
        (target_of_body state entry).symm hm hq hh ⟨rfl, rfl⟩ hmalloced.ge
      exact region_eq_none_of_type (by rw [type]; decide)
  | delete =>
    rw [type, entry] at h
    simp only at h
    split at h
    · cases h
    · rename_i w' hfree
      obtain ⟨hm, hq, hh, hmalloced⟩ := freeKey_frame hfree
      cases h
      refine .deleted state type entry ⟨hlock, ?_⟩ hm ?_ hh (lock_eq_none unlocked) rfl rfl ?_
      · exact region_eq_none_of_type (by rw [type]; decide)
      · exact hq
      · exact hmalloced.ge
  | put =>
    have hring : p.block = .ring := (hp state p entry).mp type
    have hcomplete : c.bufferIndex = (c.keySize + c.valueSize) % 2 ^ 32 := by
      rw [hzero] at window
      exact window
    rw [type, entry] at h
    simp only at h
    split at h <;> rename_i hput <;> cases h
    · refine .stored state type entry (region_eq_some state type entry hring) hlock hcomplete rfl
        (lock_eq_none unlocked) rfl rfl ?_
      rw [putEvents, if_pos (entryHashMapPut_result.symm.trans hput)]
    · refine .stored state type entry (region_eq_some state type entry hring) hlock hcomplete rfl
        (lock_eq_none unlocked) rfl rfl ?_
      rw [putEvents, if_neg fun hoom => hput (entryHashMapPut_result.trans hoom)]
  | ping => exact absurd rfl payload

theorem connectionEvent_effect (hc : c.Valid) (hp : c.Placed) (hzero : c.remainingBytes = 0)
    (h : connectionEvent serverServices c w = .ok o) : Effect c w o := by
  have hphase := hc.phase
  cases hphase with
  | receivingHeader state buffer window entry flags =>
    simp only [connectionEvent, state] at h
    cases h
    exact eventReceivedHeader_effect state flags
  | receivingArguments state buffer type payload window entry unallocated unlocked =>
    simp only [connectionEvent, state] at h
    exact eventReceivedArguments_effect state unlocked h
  | receivingBody state =>
    simp only [connectionEvent, state] at h
    exact eventReceivedBody_effect hc hp state hzero h
  | awaitingWriteUnblock state | awaitingReadUnblock state =>
    simp only [connectionEvent, state] at h
    cases h
  | @sendingHeader t state buffer type final window unlocked =>
    simp only [connectionEvent, state, eventSentHeader_final type final] at h
    cases h
    generalize (if t.endsConnection then _ else c) = d
    obtain ⟨hlock, hregion, hworld, hevents⟩ := finishRequest_free d w []
    change (finishRequest d w).world = w at hworld
    change (finishRequest d w).events = [] at hevents
    exact .of_unlocked (by rw [hworld]) (by rw [hworld]) (by rw [hworld])
      ⟨lock_eq_none unlocked, region_eq_none_of_state (by rw [state]; decide)⟩ hlock hregion
      (by rw [hevents]; exact ⟨rfl, rfl⟩) (.of_memory (by rw [hworld]) (by rw [hworld]))
  | sendingValue state buffer type window entry unallocated locked =>
    simp only [connectionEvent, state, eventSentHeader_value type entry] at h
    cases h
    have hregion : c.region = none := region_eq_none_of_state (by rw [state]; decide)
    exact .transferred (.quiet rfl rfl rfl rfl (Or.inl hregion.symm) ⟨rfl, rfl⟩ (fun h => absurd hregion h)
      (.of_memory rfl le_rfl))
  | @sendingBody p state type entry unallocated locked =>
    simp only [connectionEvent, state, eventSentBody_value type entry] at h
    cases h
    generalize hw : ({ w with memory := (entryHeaderReleaseLock w.memory p).2 } : World System) = w'
    obtain ⟨hlock, hregion, hworld, hevents⟩ := finishRequest_free { c with
      state := .sendingBody
      lockReleaseEvent := (entryHeaderReleaseLock w.memory p).1
      flags := { c.flags with lockAcquired := false } } w'
      [.released p (entryHeaderReleaseLock w.memory p).1]
    exact .transferred (.released (lock_eq_some locked entry)
      (region_eq_none_of_state (by rw [state]; decide)) (hworld.trans hw.symm) hlock hregion
      (by rw [hevents]; exact ⟨rfl, rfl⟩))

theorem connectionUnblockWrite_effect (hc : c.Valid)
    (h : connectionUnblockWrite serverServices c w = .ok o) : Effect c w o := by
  unfold connectionUnblockWrite at h
  split at h
  · rename_i hs
    obtain ⟨type, -, unlocked⟩ := hc.awaitingWriteUnblock hs
    exact attemptMemoryWrite_effect (Or.inr hs) type unlocked h
  · cases h

theorem connectionUnblockRead_effect (hc : c.Valid)
    (h : connectionUnblockRead serverServices c w = .ok o) : Effect c w o := by
  unfold connectionUnblockRead at h
  split at h
  · rename_i hs
    have hregion : c.region = none := region_eq_none_of_state (by rw [hs]; decide)
    obtain ⟨p, type, entry, -, unlocked⟩ := hc.awaitingReadUnblock hs
    rw [entry] at h
    simp only at h
    have htarget : c.target w =
        if active w.memory p ≠ 0 then some p else serverServices.entryHashMapGet p w := by
      unfold Connection.target
      rw [entry]
      simp only [hs, true_and]
      rfl
    split at h
    · rename_i ha
      cases h
      refine attemptMemoryRead_effect { c with
        state := .awaitingReadUnblock
        entryHeader := serverServices.entryHashMapGet p w } w (Or.inr hs) type
        ⟨lock_eq_none unlocked, hregion⟩ unlocked ?_ rfl rfl rfl ⟨rfl, rfl⟩ le_rfl
      rw [htarget, if_neg (by rw [ha]; decide)]
    · rename_i ha
      cases h
      have htaken : c.entryHeader = c.target w := by rw [htarget, if_pos ha, entry]
      exact attemptMemoryRead_effect c w (Or.inr hs) type ⟨lock_eq_none unlocked, hregion⟩ unlocked
        htaken rfl rfl rfl (⟨rfl, rfl⟩ : Silent []) le_rfl
  · cases h

/-! ### Where the body goes -/

theorem placed_of_state (h : c.state ≠ .receivingBody) : c.Placed := fun hs => absurd hs h

theorem attemptMemoryRead_state (d : Connection) (u : World System) :
    (attemptMemoryRead d u).connection.state ≠ .receivingBody := by
  unfold attemptMemoryRead
  split
  · simp [sendHeader]
  · split
    · simp
    · simp [sendHeader]

theorem attemptMemoryWrite_placed (ht : c.requestType = some .put)
    (h : attemptMemoryWrite serverServices c w = .ok o) : o.connection.Placed := by
  unfold attemptMemoryWrite at h
  simp only [serverServices] at h
  generalize hcall : memoryQueueAllocate w.store c.keySize c.valueSize _ c.entryHeader = r at h
  cases r with
  | error fault => cases h
  | ok r =>
    obtain ⟨result, p, s'⟩ := r
    cases result with
    | outOfMemory | writeBlocked =>
      cases h
      exact placed_of_state (by simp [sendHeader])
    | success | none =>
      obtain ⟨n, rfl⟩ := memoryQueueAllocate_pointer hcall (by decide)
      cases h
      intro _ p hp
      cases hp
      exact iff_of_true ht rfl

theorem eventReceivedArguments_placed (h : eventReceivedArguments serverServices c w = .ok o) :
    o.connection.Placed := by
  unfold eventReceivedArguments at h
  split at h
  case h_3 ht => exact attemptMemoryWrite_placed ht h
  case h_4 => cases h
  all_goals
    rename_i ht
    split at h
    · cases h
      exact placed_of_state (by simp [sendHeader])
    · rename_i p w' hcall
      obtain ⟨-, -, -, -, hp⟩ := mallocKey_frame hcall
      cases h
      intro _ q hq
      cases hq
      refine iff_of_false (fun hput => ?_) (by simp [hp p rfl])
      cases ht.symm.trans hput

theorem eventReceivedBody_state (h : eventReceivedBody serverServices c w = .ok o) :
    o.connection.state ≠ .receivingBody := by
  unfold eventReceivedBody at h
  split at h
  · simp only at h
    split at h <;> cases h
    exact attemptMemoryRead_state _ _
  · simp only at h
    split at h <;> cases h
    simp [sendHeader]
  · simp only at h
    split at h <;> cases h <;> simp [sendHeader]
  · cases h
  · cases h
  · cases h

theorem finishRequest_state (d : Connection) (u : World System) (hs : d.state ≠ .receivingBody) :
    (finishRequest d u).connection.state ≠ .receivingBody := by
  unfold finishRequest
  split
  · simp [initRequest]
  · exact hs

/-- Only the arguments of a request are followed by its body. -/
theorem connectionEvent_body (hc : c.Valid) (h : connectionEvent serverServices c w = .ok o)
    (hs : o.connection.state = .receivingBody) : eventReceivedArguments serverServices c w = .ok o := by
  obtain ⟨hphase, -⟩ := hc
  cases hphase with
  | receivingHeader state =>
    simp only [connectionEvent, state] at h
    cases h
    refine absurd hs ?_
    unfold eventReceivedHeader
    split
    · simp [sendHeader]
    · simp only
      split <;> simp [sendHeader]
  | receivingArguments state =>
    simpa only [connectionEvent, state] using h
  | receivingBody state =>
    simp only [connectionEvent, state] at h
    exact absurd hs (eventReceivedBody_state h)
  | awaitingWriteUnblock state | awaitingReadUnblock state =>
    simp only [connectionEvent, state] at h
    cases h
  | sendingHeader state buffer type final =>
    simp only [connectionEvent, state, eventSentHeader_final type final] at h
    cases h
    refine absurd hs (finishRequest_state _ _ ?_)
    split <;> simp [state]
  | sendingValue state buffer type window entry =>
    simp only [connectionEvent, state, eventSentHeader_value type entry] at h
    cases h
    cases hs
  | sendingBody state type entry =>
    simp only [connectionEvent, state, eventSentBody_value type entry] at h
    cases h
    exact absurd hs (finishRequest_state _ _ (by simp))

theorem connectionEvent_placed (hc : c.Valid) (h : connectionEvent serverServices c w = .ok o) :
    o.connection.Placed := fun hs => eventReceivedArguments_placed (connectionEvent_body hc h hs) hs

theorem connectionUnblockWrite_placed (hc : c.Valid)
    (h : connectionUnblockWrite serverServices c w = .ok o) : o.connection.Placed := by
  unfold connectionUnblockWrite at h
  split at h
  · rename_i hs
    exact attemptMemoryWrite_placed (hc.awaitingWriteUnblock hs).1 h
  · cases h

theorem connectionUnblockRead_state (h : connectionUnblockRead serverServices c w = .ok o) :
    o.connection.state ≠ .receivingBody := by
  unfold connectionUnblockRead at h
  split at h
  · split at h
    · cases h
    · split at h <;> cases h <;> exact attemptMemoryRead_state _ _
  · cases h

end

end CacheServer
