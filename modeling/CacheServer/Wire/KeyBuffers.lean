import CacheServer.Model.Server
import CacheServer.Ring.Admission
import CacheServer.Wire.Phases

/-!
# The key buffer of a GET or DELETE

event_received_arguments takes a buffer for the key from malloc. The connection
owns it until it passes it to free; what it owns is read off the events of its
steps.
-/

namespace CacheServer
open EntryHeader

/-! ### Owning a buffer -/

def ownedAfterEvent (owned : Option Pointer) : Event → Option Pointer
  | .malloced p => some p
  | .freed b => if owned.map Buffer.memory = some b then none else owned
  | _ => owned

def ownedAfter (owned : Option Pointer) (events : List Event) : Option Pointer :=
  events.foldl ownedAfterEvent owned

/- Nothing is taken from malloc while a buffer is owned, and only that buffer is passed to free,
as the pointer that malloc returned. -/
def rightful (owned : Option Pointer) : Event → Prop
  | .malloced _ => owned = none
  | .freed b => owned.map Buffer.memory = some b
  | _ => True

def FreesOwned : Option Pointer → List Event → Prop
  | _, [] => True
  | owned, e :: es => rightful owned e ∧ FreesOwned (ownedAfterEvent owned e) es

/-- A pointer that malloc gave and that is not yet freed. -/
def KeyBuffer (w : World System) (p : Pointer) : Prop :=
  ∃ i ∈ w.system.keyBuffers, p = ⟨.key i, 0⟩

/-- The flag says whether a buffer is owned; the buffer is the one that receives the key. -/
structure BufferOf (owned : Option Pointer) (c : Connection) (w : World System) : Prop where
  flag : c.flags.allocatedBuffer = owned.isSome
  mine : ∀ p, owned = some p → c.state = .receivingBody ∧ c.entryHeader = some p ∧ KeyBuffer w p

structure Keeps (owned : Option Pointer) (o : Outcome System) : Prop where
  frees : FreesOwned owned o.events
  after : BufferOf (ownedAfter owned o.events) o.connection o.world
  ended : o.result = .newRequest ∨ o.result = .disconnect → ownedAfter owned o.events = none

/-- A step passes to free what it should, if it returns, and is not ended by free. -/
def StepKeeps (owned : Option Pointer) (r : Except Fault (Outcome System)) : Prop :=
  r ≠ .error .invalidFree ∧ ∀ o, r = .ok o → Keeps owned o

/-- With a key buffer, the socket fails or the last bytes of the key of a DELETE arrive. -/
def LosesBuffer (socket : Socket) (c : Connection) : Prop :=
  c.flags.allocatedBuffer = true ∧
    (socket.failed = true ∨
      c.requestType = some .delete ∧ 0 < c.remainingBytes ∧
        c.remainingBytes ≤ socket.incoming.length)

instance (socket : Socket) (c : Connection) : Decidable (LosesBuffer socket c) :=
  inferInstanceAs (Decidable (_ ∧ (_ ∨ _ ∧ _ ∧ _)))

/-- The states of a connection under the server, with the buffer that it owns. In between,
others may do anything to the world but free that buffer. -/
inductive BufferRun : Option Pointer → Connection → World System → Prop
  | opened (fileDescriptor : Nat) (header arguments : ByteArea) (w : World System) :
      BufferRun none (connectionInit fileDescriptor header arguments) w
  | elsewhere {owned : Option Pointer} {c : Connection} {w : World System} (w' : World System)
      (run : BufferRun owned c w) (kept : ∀ p, owned = some p → KeyBuffer w p → KeyBuffer w' p) :
      BufferRun owned c w'
  | proceeded {owned : Option Pointer} {c : Connection} {w : World System} {o : Outcome System}
      (socket : Socket) (run : BufferRun owned c w) (safe : ¬ LosesBuffer socket c)
      (call : connectionProc serverServices socket c w = .ok o) (open_ : o.result ≠ .disconnect) :
      BufferRun (ownedAfter owned o.events) o.connection o.world
  | unblockedRead {owned : Option Pointer} {c : Connection} {w : World System} {o : Outcome System}
      (run : BufferRun owned c w) (call : connectionUnblockRead serverServices c w = .ok o) :
      BufferRun (ownedAfter owned o.events) o.connection o.world
  | unblockedWrite {owned : Option Pointer} {c : Connection} {w : World System} {o : Outcome System}
      (run : BufferRun owned c w) (call : connectionUnblockWrite serverServices c w = .ok o) :
      BufferRun (ownedAfter owned o.events) o.connection o.world

/-! ### Events -/

section
variable {owned : Option Pointer} {c : Connection} {w : World System} {o : Outcome System}
  {socket : Socket} {p : Pointer}

/-- No malloc and no free. -/
def Untouched (events : List Event) : Prop :=
  ∀ e ∈ events, (∀ p, e ≠ .malloced p) ∧ ∀ b, e ≠ .freed b

theorem ownedAfter_append (owned : Option Pointer) (es es' : List Event) :
    ownedAfter owned (es ++ es') = ownedAfter (ownedAfter owned es) es' :=
  List.foldl_append ..

theorem freesOwned_append (owned : Option Pointer) (es es' : List Event) :
    FreesOwned owned (es ++ es') ↔ FreesOwned owned es ∧ FreesOwned (ownedAfter owned es) es' := by
  induction es generalizing owned with
  | nil => simp [FreesOwned, ownedAfter]
  | cons e es ih =>
    show rightful owned e ∧ FreesOwned (ownedAfterEvent owned e) (es ++ es') ↔ _
    rw [ih]
    exact and_assoc.symm

theorem Untouched.quiet {events : List Event} (h : Untouched events) (owned : Option Pointer) :
    ownedAfter owned events = owned ∧ FreesOwned owned events := by
  induction events with
  | nil => exact ⟨rfl, trivial⟩
  | cons e es ih =>
    obtain ⟨hmalloc, hfree⟩ := h e (List.mem_cons_self ..)
    have hsame : ownedAfterEvent owned e = owned ∧ rightful owned e := by
      cases e with
      | malloced p => exact absurd rfl (hmalloc p)
      | freed b => exact absurd rfl (hfree b)
      | _ => exact ⟨rfl, trivial⟩
    obtain ⟨hafter, hfrees⟩ := ih fun x hx => h x (List.mem_cons_of_mem _ hx)
    refine ⟨?_, hsame.2, ?_⟩
    · show ownedAfter (ownedAfterEvent owned e) es = owned
      rw [hsame.1]
      exact hafter
    · rw [hsame.1]
      exact hfrees

/-- No buffer before the step, none after it. -/
structure Outcome.Bufferless (o : Outcome System) : Prop where
  events : Untouched o.events
  flag : o.connection.flags.allocatedBuffer = false

theorem Outcome.Bufferless.keeps (h : o.Bufferless) : Keeps none o := by
  obtain ⟨hafter, hfrees⟩ := h.events.quiet none
  refine ⟨hfrees, ⟨?_, ?_⟩, fun _ => hafter⟩
  · rw [hafter]
    exact h.flag
  · rw [hafter]
    intro p hp
    cases hp

theorem StepKeeps.ok (h : Keeps owned o) : StepKeeps owned (.ok o) := by
  constructor
  · intro he
    cases he
  · intro o' ho
    cases ho
    exact h

theorem StepKeeps.error {fault : Fault} (h : fault ≠ .invalidFree) : StepKeeps owned (.error fault) := by
  refine ⟨fun he => ?_, fun o ho => by cases ho⟩
  cases he
  exact h rfl

theorem Keeps.after_events (h : Keeps owned o) {events : List Event} (hu : Untouched events) :
    Keeps owned (o.after events) := by
  obtain ⟨hafter, hfrees⟩ := hu.quiet owned
  have hsame : ownedAfter owned (events ++ o.events) = ownedAfter owned o.events := by
    rw [ownedAfter_append, hafter]
  refine ⟨(freesOwned_append ..).mpr ⟨hfrees, ?_⟩, ?_, fun he => ?_⟩
  · rw [hafter]
    exact h.frees
  · show BufferOf (ownedAfter owned (events ++ o.events)) _ _
    rw [hsame]
    exact h.after
  · show ownedAfter owned (events ++ o.events) = none
    rw [hsame]
    exact h.ended he

/-! ### Steps without a buffer -/

theorem eventReceivedHeader_bufferless (hf : c.flags.allocatedBuffer = false) :
    (eventReceivedHeader c w).Bufferless := by
  unfold eventReceivedHeader
  split
  · exact ⟨by simp [Untouched], hf⟩
  · have hkept : (if c.requestFlags % 2 = 1
        then { c with flags := { c.flags with keepAlive := true } } else c).flags.allocatedBuffer =
          false := by
      split <;> exact hf
    generalize (if c.requestFlags % 2 = 1
      then { c with flags := { c.flags with keepAlive := true } } else c) = c' at hkept
    simp only
    split <;> exact ⟨by simp [Untouched], hkept⟩

theorem attemptMemoryRead_bufferless (hf : c.flags.allocatedBuffer = false) :
    (attemptMemoryRead c w).Bufferless := by
  refine ⟨by simp [attemptMemoryRead_events, Untouched], ?_⟩
  unfold attemptMemoryRead
  split
  · exact hf
  · split <;> exact hf

theorem attemptMemoryWrite_bufferless (hf : c.flags.allocatedBuffer = false)
    (h : attemptMemoryWrite serverServices c w = .ok o) : o.Bufferless := by
  unfold attemptMemoryWrite at h
  split at h <;> cases h <;> exact ⟨by simp [Untouched], hf⟩

theorem finishRequest_bufferless (hf : c.flags.allocatedBuffer = false) :
    (finishRequest c w).Bufferless := by
  unfold finishRequest
  split
  · exact ⟨by simp [Untouched], rfl⟩
  · exact ⟨by simp [Untouched], hf⟩

theorem Outcome.Bufferless.after (h : o.Bufferless) {events : List Event} (hu : Untouched events) :
    (o.after events).Bufferless := by
  refine ⟨fun e he => ?_, h.flag⟩
  rcases List.mem_append.mp he with he | he
  · exact hu e he
  · exact h.events e he

theorem socketFailure_bufferless (hf : c.flags.allocatedBuffer = false)
    (h : socketFailure serverServices c w = .ok o) : o.Bufferless := by
  unfold socketFailure at h
  simp only [hf, Bool.false_eq_true, if_false] at h
  split at h
  · split at h
    · cases h
    · rename_i p _
      generalize entryHeaderReleaseLock w.memory p = r at h
      cases h
      exact ⟨by simp [Untouched], hf⟩
  · cases h
    exact ⟨by simp [Untouched], hf⟩

/-! ### Faults that free does not cause -/

theorem removeEntry_fault {s : Store} (h : removeEntry s p = .error .invalidFree) : False := by
  have hcases := removeEntry_cases s p
  rw [h] at hcases
  cases hcases

theorem forceClean_fault {s : Store} (h : forceClean s = .error .invalidFree) : False := by
  rw [forceClean_total] at h
  split at h
  · simp only at h
    split at h
    · rename_i hremove
      cases h
      exact removeEntry_fault hremove
    · split at h <;> cases h
  · cases h

theorem cleanWhile_fault {cond : MemoryQueueContext → Bool} {n : Nat} {s : Store}
    (h : cleanWhile cond n s = .error .invalidFree) : False := by
  induction n generalizing s with
  | zero => cases h
  | succ n ih =>
    rw [cleanWhile] at h
    split at h
    · split at h
      · rename_i hclean
        cases h
        exact forceClean_fault hclean
      · split at h
        · cases h
        · exact ih h
    · cases h

theorem allocateAt_fault {s : Store} {k v expiry : Nat}
    (h : allocateAt s p k v expiry = .error .invalidFree) : False := by
  unfold allocateAt accessHeader at h
  simp only at h
  split at h
  · rename_i hloop
    cases h
    exact cleanWhile_fault hloop
  · split at h
    · cases h
    · split at h <;> cases h

theorem memoryQueueAllocate_fault {s : Store} {k v expiry : Nat} {q : Option Pointer}
    (h : memoryQueueAllocate s k v expiry q = .error .invalidFree) : False := by
  unfold memoryQueueAllocate accessHeader at h
  simp only at h
  split at h
  · cases h
  · split at h
    · split at h
      · rename_i hloop
        cases h
        exact cleanWhile_fault hloop
      · split at h
        · cases h
        · split at h
          · exact allocateAt_fault h
          · cases h
    · exact allocateAt_fault h

theorem attemptMemoryWrite_fault (h : attemptMemoryWrite serverServices c w = .error .invalidFree) :
    False := by
  unfold attemptMemoryWrite at h
  split at h
  · rename_i hallocate
    cases h
    simp only [serverServices] at hallocate
    split at hallocate
    · rename_i hcall
      cases hallocate
      exact memoryQueueAllocate_fault hcall
    · cases hallocate
  all_goals cases h

theorem attemptMemoryWrite_keeps (hf : c.flags.allocatedBuffer = false) :
    StepKeeps none (attemptMemoryWrite serverServices c w) :=
  ⟨fun h => attemptMemoryWrite_fault h, fun _ h => (attemptMemoryWrite_bufferless hf h).keeps⟩

/-! ### malloc and free -/

theorem freeKey_ok (h : KeyBuffer w p) : ∃ w', freeKey (.memory p) w = .ok w' := by
  obtain ⟨i, hi, rfl⟩ := h
  exact ⟨_, if_pos hi⟩

/- The buffer pointer of the body is not the pointer that malloc returned. -/
theorem freeKey_interior (h : KeyBuffer w p) :
    freeKey (.memory (p.add entryHeaderSize)) w = .error .invalidFree := by
  obtain ⟨i, -, rfl⟩ := h
  rfl

theorem mallocKey_gives {size : Nat} {w' : World System}
    (h : serverServices.malloc size w = (some p, w')) : KeyBuffer w' p := by
  simp only [serverServices, mallocKey] at h
  split at h
  · cases h
  · cases h
    exact ⟨w.system.malloced, List.mem_cons_self .., rfl⟩

theorem BufferOf.none_of_state (h : BufferOf owned c w) (hs : c.state ≠ .receivingBody) :
    owned = none := by
  cases owned with
  | none => rfl
  | some p => exact absurd (h.mine p rfl).1 hs

theorem BufferOf.none_of_flag (h : BufferOf owned c w) (hf : c.flags.allocatedBuffer = false) :
    owned = none := by
  have hflag := h.flag
  rw [hf] at hflag
  cases owned with
  | none => rfl
  | some p => cases hflag

/- The buffer is gone and the flag is cleared. -/
theorem Keeps.of_freed (frees : FreesOwned owned o.events) (after : ownedAfter owned o.events = none)
    (flag : o.connection.flags.allocatedBuffer = false) : Keeps owned o := by
  refine ⟨frees, ⟨?_, ?_⟩, fun _ => after⟩
  · rw [after]
    exact flag
  · rw [after]
    intro p hp
    cases hp

theorem Keeps.malloced {size : Nat} {w' : World System}
    (h : serverServices.malloc size w = (some p, w')) (flag : c.flags.allocatedBuffer = true)
    (state : c.state = .receivingBody) (entry : c.entryHeader = some p) (m : Memory) :
    Keeps none ⟨.success, c, { w' with memory := m }, [.malloced p]⟩ := by
  refine ⟨⟨rfl, trivial⟩, ⟨flag, fun q hq => ?_⟩, fun he => ?_⟩
  · cases hq
    obtain ⟨i, hi, hp⟩ := mallocKey_gives h
    exact ⟨state, entry, i, hi, hp⟩
  · rcases he with he | he <;> cases he

theorem eventReceivedArguments_keeps (hf : c.flags.allocatedBuffer = false) :
    StepKeeps none (eventReceivedArguments serverServices c w) := by
  unfold eventReceivedArguments
  split
  · split
    · exact .ok (Outcome.Bufferless.keeps ⟨by simp [Untouched], hf⟩)
    · rename_i hcall
      exact .ok (Keeps.malloced hcall rfl rfl rfl _)
  · split
    · exact .ok (Outcome.Bufferless.keeps ⟨by simp [Untouched], hf⟩)
    · rename_i hcall
      exact .ok (Keeps.malloced hcall rfl rfl rfl _)
  · exact attemptMemoryWrite_keeps hf
  · exact .error (by decide)

theorem eventReceivedBody_get (ht : c.requestType = some .get) (hp : c.entryHeader = some p)
    (hw : KeyBuffer w p) : ∃ found request w', eventReceivedBody serverServices c w =
      .ok ((attemptMemoryRead { c with
          flags := { c.flags with allocatedBuffer := false }
          entryHeader := found } w').after
        [.executed request, .lookedUp request.key found, .freed (.memory p)]) := by
  obtain ⟨w', hfree⟩ := freeKey_ok hw
  have hcall : serverServices.free (.memory p) w = .ok w' := hfree
  refine ⟨serverServices.entryHashMapGet p w, requestOf .get c w.memory p, w', ?_⟩
  simp only [eventReceivedBody, ht, hp, hcall]

theorem eventReceivedBody_delete (ht : c.requestType = some .delete) (hp : c.entryHeader = some p)
    (hw : KeyBuffer w p) : ∃ request w', eventReceivedBody serverServices c w =
      .ok ⟨.success, sendHeader c .ok, w', [.executed request, .freed (.memory p)]⟩ := by
  have hw' : KeyBuffer (serverServices.entryHashMapDelete p w) p := hw
  obtain ⟨w', hfree⟩ := freeKey_ok hw'
  have hcall : serverServices.free (.memory p) (serverServices.entryHashMapDelete p w) = .ok w' := hfree
  refine ⟨requestOf .delete c w.memory p, w', ?_⟩
  simp only [eventReceivedBody, ht, hp, hcall]

theorem eventReceivedBody_put (ht : c.requestType = some .put) (hp : c.entryHeader = some p)
    (hf : c.flags.allocatedBuffer = false) :
    StepKeeps none (eventReceivedBody serverServices c w) := by
  simp only [eventReceivedBody, ht, hp]
  split
  · exact .ok (Outcome.Bufferless.keeps ⟨by simp [Untouched], hf⟩)
  · exact .ok (Outcome.Bufferless.keeps ⟨by simp [Untouched], hf⟩)

/-- The switch of connection_proc keeps the account, but for the body of a DELETE. -/
theorem connectionEvent_keeps (hc : c.Valid) (hb : BufferOf owned c w)
    (hd : c.flags.allocatedBuffer = true → c.requestType ≠ some .delete) :
    StepKeeps owned (connectionEvent serverServices c w) := by
  obtain ⟨hphase, he⟩ := hc
  cases hphase with
  | receivingHeader state buffer window entry flags =>
    have hf : c.flags.allocatedBuffer = false := by rw [flags]
    obtain rfl := hb.none_of_flag hf
    simp only [connectionEvent, state]
    exact .ok (eventReceivedHeader_bufferless hf).keeps
  | receivingArguments state buffer type payload window entry unallocated unlocked =>
    obtain rfl := hb.none_of_flag unallocated
    simp only [connectionEvent, state]
    exact eventReceivedArguments_keeps unallocated
  | @receivingBody t p state buffer type payload window entry allocated unlocked =>
    simp only [connectionEvent, state]
    cases t with
    | ping => exact absurd rfl payload
    | delete => exact absurd type (hd allocated)
    | put =>
      obtain rfl := hb.none_of_flag allocated
      exact eventReceivedBody_put type entry allocated
    | get =>
      have hflag := hb.flag
      rw [allocated] at hflag
      obtain ⟨q, rfl⟩ := Option.isSome_iff_exists.mp hflag.symm
      obtain ⟨-, hq, hw⟩ := hb.mine q rfl
      rw [entry] at hq
      cases hq
      obtain ⟨found, request, w', hstep⟩ := eventReceivedBody_get type entry hw
      rw [hstep]
      have hread : (attemptMemoryRead { c with
          flags := { c.flags with allocatedBuffer := false }
          entryHeader := found } w').Bufferless := attemptMemoryRead_bufferless rfl
      have hevents := attemptMemoryRead_events { c with
          flags := { c.flags with allocatedBuffer := false }
          entryHeader := found } w'
      refine .ok (Keeps.of_freed ?_ ?_ hread.flag)
      · simp [Outcome.after, hevents, FreesOwned, rightful, ownedAfterEvent]
      · simp [Outcome.after, hevents, ownedAfter, ownedAfterEvent]
  | awaitingWriteUnblock state | awaitingReadUnblock state =>
    simp only [connectionEvent, state]
    exact .error (by decide)
  | sendingHeader state buffer type final window unlocked =>
    obtain rfl := hb.none_of_state (by rw [state]; decide)
    simp only [connectionEvent, state, eventSentHeader_final type final]
    refine .ok (finishRequest_bufferless ?_).keeps
    split <;> exact hb.flag
  | sendingValue state buffer type window entry unallocated locked =>
    obtain rfl := hb.none_of_flag unallocated
    simp only [connectionEvent, state, eventSentHeader_value type entry]
    exact .ok (Outcome.Bufferless.keeps ⟨by simp [Untouched], unallocated⟩)
  | sendingBody state type entry unallocated locked =>
    obtain rfl := hb.none_of_flag unallocated
    simp only [connectionEvent, state, eventSentBody_value type entry]
    refine .ok (Outcome.Bufferless.after (finishRequest_bufferless ?_) ?_).keeps
    · exact unallocated
    · simp [Untouched]

/-! ### Transfers -/

theorem storeReceived_fields (c : Connection) (w : World System) (bytes : List UInt8) :
    (storeReceived c w bytes).1.flags = c.flags ∧
      (storeReceived c w bytes).1.entryHeader = c.entryHeader ∧
      (storeReceived c w bytes).2.system = w.system := by
  unfold storeReceived
  split <;> exact ⟨rfl, rfl, rfl⟩

theorem BufferOf.received (h : BufferOf owned c w) (bytes : List UInt8) (n : Nat) :
    BufferOf owned (advance (storeReceived c w bytes).1 n) (storeReceived c w bytes).2 := by
  obtain ⟨hflags, hentry, hsystem⟩ := storeReceived_fields c w bytes
  refine ⟨?_, fun p hp => ?_⟩
  · show (storeReceived c w bytes).1.flags.allocatedBuffer = _
    rw [hflags]
    exact h.flag
  · obtain ⟨hs, he, i, hi, hpi⟩ := h.mine p hp
    refine ⟨(storeReceived_state ..).trans hs, hentry.trans he, i, ?_, hpi⟩
    rw [hsystem]
    exact hi

theorem BufferOf.keeps (h : BufferOf owned c w) {result : ConnectionResult} {events : List Event}
    (hu : Untouched events) (hr : result ≠ .newRequest ∧ result ≠ .disconnect) :
    Keeps owned ⟨result, c, w, events⟩ := by
  obtain ⟨hafter, hfrees⟩ := hu.quiet owned
  refine ⟨hfrees, ?_, fun he => ?_⟩
  · rw [hafter]
    exact h
  · rcases he with he | he
    · exact absurd he hr.1
    · exact absurd he hr.2

/- With a buffer, the connection is receiving the key into it. -/
theorem BufferOf.body (hb : BufferOf owned c w) (hc : c.Valid) (hf : c.flags.allocatedBuffer = true) :
    ∃ p, owned = some p ∧ c.state = .receivingBody ∧ c.buffer = .memory (p.add entryHeaderSize) ∧
      c.entryHeader = some p ∧ KeyBuffer w p := by
  have hflag := hb.flag
  rw [hf] at hflag
  obtain ⟨p, rfl⟩ := Option.isSome_iff_exists.mp hflag.symm
  obtain ⟨hs, he, hw⟩ := hb.mine p rfl
  obtain ⟨t, q, buffer, -, -, -, entry, -⟩ := hc.receivingBody hs
  cases entry.symm.trans he
  exact ⟨p, rfl, hs, buffer, he, hw⟩

theorem socketFailure_keeps (hf : c.flags.allocatedBuffer = false) :
    StepKeeps none (socketFailure serverServices c w) := by
  refine ⟨fun h => ?_, fun o h => (socketFailure_bufferless hf h).keeps⟩
  unfold socketFailure at h
  simp only [hf, Bool.false_eq_true, if_false] at h
  split at h
  · split at h <;> cases h
  · cases h

theorem socketFailure_interior (hf : c.flags.allocatedBuffer = true)
    (hbuffer : c.buffer = .memory (p.add entryHeaderSize)) (hw : KeyBuffer w p) :
    socketFailure serverServices c w = .error .invalidFree := by
  have hfree : serverServices.free (.memory (p.add entryHeaderSize)) w = .error .invalidFree :=
    freeKey_interior hw
  simp only [socketFailure, hf, if_true, hbuffer, hfree]

/- After a completed transfer the switch goes on, unless bytes remain. -/
theorem proceed_keeps {c₁ : Connection} {w₁ : World System} {events : List Event}
    (hstep : connectionTransfer serverServices socket c w = .ok ⟨.success, c₁, w₁, events⟩)
    (hu : Untouched events) (hc : c₁.Valid) (hb : BufferOf owned c₁ w₁)
    (hd : c₁.remainingBytes = 0 → c₁.flags.allocatedBuffer = true →
      c₁.requestType ≠ some .delete) :
    StepKeeps owned (connectionProc serverServices socket c w) := by
  rw [connectionProc_eq_of_transfer _ _ _ _ hstep, if_neg (by simp)]
  split
  · exact .ok (hb.keeps hu ⟨by decide, by decide⟩)
  · rename_i hdone
    have hzero : c₁.remainingBytes = 0 := by simpa using hdone
    obtain ⟨hfault, hkeeps⟩ := connectionEvent_keeps hc hb (hd hzero)
    generalize connectionEvent serverServices c₁ w₁ = r at hfault hkeeps
    cases r with
    | error fault => exact .error fun hf => hfault (congrArg Except.error hf)
    | ok o => exact .ok ((hkeeps o rfl).after_events hu)

theorem connectionProc_keeps (hc : c.Valid) (hb : BufferOf owned c w)
    (safe : ¬ LosesBuffer socket c) :
    StepKeeps owned (connectionProc serverServices socket c w) := by
  have hcases := connectionTransfer_cases serverServices socket c w
  generalize ht : connectionTransfer serverServices socket c w = r at hcases
  cases hcases with
  | unsupported =>
    rw [connectionProc, ht]
    exact .error (by decide)
  | idle =>
    rw [connectionProc_eq_of_transfer _ _ _ _ ht, if_pos (by simp)]
    exact .ok (hb.keeps (by simp [Untouched]) ⟨by decide, by decide⟩)
  | failed failed =>
    have hf : c.flags.allocatedBuffer = false := by
      by_contra hset
      exact safe ⟨by simpa using hset, Or.inl failed⟩
    obtain rfl := hb.none_of_flag hf
    obtain ⟨hfault, hkeeps⟩ := socketFailure_keeps (w := w) hf
    rw [connectionProc, ht]
    generalize hr : socketFailure serverServices c w = r at hfault hkeeps
    cases r with
    | error fault => exact .error fun he => hfault (congrArg Except.error he)
    | ok o =>
      have hresult : o.result ≠ .success := by rw [socketFailure_result hr]; decide
      simp only [if_pos hresult]
      exact .ok (hkeeps o rfl)
  | received bytes state some le front works =>
    refine proceed_keeps ht (by simp [Untouched]) (received_valid hc state le)
      (hb.received bytes bytes.length) fun hzero hset hdelete => safe ?_
    have hset' : c.flags.allocatedBuffer = true := by
      rw [← (storeReceived_fields c w bytes).1]
      exact hset
    obtain ⟨p, -, -, hbuffer, -, -⟩ := hb.body hc hset'
    simp only [storeReceived, hbuffer] at hzero hdelete
    have hlen : bytes.length = c.remainingBytes := by
      have hleft : c.remainingBytes - bytes.length = 0 := hzero
      omega
    have hpos : 0 < bytes.length := List.length_pos_of_ne_nil some
    refine ⟨hset', Or.inr ⟨hdelete, by omega, ?_⟩⟩
    rw [front, List.length_take] at hlen
    omega
  | sent bytes state some le front works =>
    refine proceed_keeps ht (by simp [Untouched]) (sent_valid hc state le) ⟨hb.flag, hb.mine⟩ ?_
    intro _ hset
    obtain ⟨p, -, hs, -⟩ := hb.body hc hset
    rw [hs] at state
    cases state

/-! ### Steps that lose the buffer -/

theorem connectionTransfer_received (hs : c.state.receiving = true) (hf : socket.failed = false)
    (hpos : 0 < c.remainingBytes) (hle : c.remainingBytes ≤ socket.incoming.length) :
    ∃ bytes, bytes.length = c.remainingBytes ∧ connectionTransfer serverServices socket c w =
      .ok ⟨.success, advance (storeReceived c w bytes).1 bytes.length, (storeReceived c w bytes).2,
        [.received bytes]⟩ := by
  have hlen : (socket.incoming.take c.remainingBytes).length = c.remainingBytes :=
    List.length_take_of_le hle
  have hne : socket.incoming ≠ [] := by
    rintro hnil
    rw [hnil, List.length_nil] at hle
    omega
  refine ⟨_, hlen, ?_⟩
  rw [connectionTransfer_receiving _ _ _ _ hs, Socket.recv, hf, if_neg (by decide),
    if_neg (by omega), if_neg hne]
  generalize socket.incoming.take c.remainingBytes = bytes at hlen
  cases bytes with
  | nil =>
    rw [List.length_nil] at hlen
    omega
  | cons b bs => rfl

theorem not_keeps_of_failed (hc : c.Valid) (hb : BufferOf owned c w)
    (hset : c.flags.allocatedBuffer = true) (hf : socket.failed = true) :
    ¬ StepKeeps owned (connectionProc serverServices socket c w) := by
  obtain ⟨p, -, hs, hbuffer, -, hw⟩ := hb.body hc hset
  have hreceiving : c.state.receiving = true := by rw [hs]; rfl
  have htransfer : connectionTransfer serverServices socket c w = .error .invalidFree := by
    rw [connectionTransfer_receiving _ _ _ _ hreceiving, Socket.recv, if_pos hf]
    exact socketFailure_interior hset hbuffer hw
  intro hkeeps
  apply hkeeps.1
  rw [connectionProc, htransfer]

theorem not_keeps_of_deleted (hc : c.Valid) (hb : BufferOf owned c w)
    (hset : c.flags.allocatedBuffer = true) (hf : socket.failed = false)
    (hdelete : c.requestType = some .delete) (hpos : 0 < c.remainingBytes)
    (hle : c.remainingBytes ≤ socket.incoming.length) :
    ¬ StepKeeps owned (connectionProc serverServices socket c w) := by
  obtain ⟨p, rfl, hs, hbuffer, hentry, hw⟩ := hb.body hc hset
  obtain ⟨bytes, hlen, htransfer⟩ :=
    connectionTransfer_received (w := w) (by rw [hs]; rfl) hf hpos hle
  simp only [storeReceived, hbuffer] at htransfer
  generalize hc₁ : advance c bytes.length = c₁ at htransfer
  generalize hw₁ : w.memory.write ((p.add entryHeaderSize).add c.bufferIndex) bytes = m at htransfer
  have hstep : eventReceivedBody serverServices c₁ { w with memory := m } =
      connectionEvent serverServices c₁ { w with memory := m } := by
    rw [connectionEvent, ← hc₁]
    simp only [advance, hs]
  obtain ⟨request, w', hevent⟩ := eventReceivedBody_delete (c := c₁) (w := { w with memory := m })
    (by rw [← hc₁]; exact hdelete) (by rw [← hc₁]; exact hentry) hw
  have hzero : c₁.remainingBytes = 0 := by
    rw [← hc₁]
    show c.remainingBytes - bytes.length = 0
    omega
  rintro ⟨-, hkeeps⟩
  rw [connectionProc_eq_of_transfer _ _ _ _ htransfer, if_neg (by simp), if_neg (by simp [hzero]),
    ← hstep, hevent] at hkeeps
  have hflag := (hkeeps _ rfl).after.flag
  have hkept : c₁.flags.allocatedBuffer = true := by
    rw [← hc₁]
    exact hset
  have hgone : ownedAfter (some p) [.received bytes, .executed request, .freed (.memory p)] = none := by
    simp [ownedAfter, ownedAfterEvent]
  change c₁.flags.allocatedBuffer = (ownedAfter (some p)
    [.received bytes, .executed request, .freed (.memory p)]).isSome at hflag
  rw [hgone, hkept] at hflag
  cases hflag

theorem connectionProc_keeps_iff (hc : c.Valid) (hb : BufferOf owned c w) :
    StepKeeps owned (connectionProc serverServices socket c w) ↔ ¬ LosesBuffer socket c := by
  constructor
  · rintro hkeeps ⟨hset, hlost⟩
    cases hf : socket.failed with
    | true => exact not_keeps_of_failed hc hb hset hf hkeeps
    | false =>
      rcases hlost with hfailed | ⟨hdelete, hpos, hle⟩
      · rw [hf] at hfailed
        cases hfailed
      · exact not_keeps_of_deleted hc hb hset hf hdelete hpos hle hkeeps
  · exact connectionProc_keeps hc hb

/-! ### Runs -/

theorem connectionUnblockRead_keeps (hb : BufferOf owned c w) :
    StepKeeps owned (connectionUnblockRead serverServices c w) := by
  unfold connectionUnblockRead
  split
  · rename_i hs
    obtain rfl := hb.none_of_state (by rw [hs]; decide)
    split
    · exact .error (by decide)
    · split
      · refine .ok (Outcome.Bufferless.after (attemptMemoryRead_bufferless ?_) ?_).keeps
        · exact hb.flag
        · simp [Untouched]
      · exact .ok (attemptMemoryRead_bufferless hb.flag).keeps
  · exact .error (by decide)

theorem connectionUnblockWrite_keeps (hb : BufferOf owned c w) :
    StepKeeps owned (connectionUnblockWrite serverServices c w) := by
  unfold connectionUnblockWrite
  split
  · rename_i hs
    obtain rfl := hb.none_of_state (by rw [hs]; decide)
    exact attemptMemoryWrite_keeps hb.flag
  · exact .error (by decide)

theorem BufferRun.sound (run : BufferRun owned c w) : c.Valid ∧ BufferOf owned c w := by
  induction run with
  | opened fileDescriptor header arguments w =>
    exact ⟨connectionInit_valid .., rfl, fun p hp => by cases hp⟩
  | elsewhere w' run kept ih =>
    obtain ⟨hc, hb⟩ := ih
    refine ⟨hc, hb.flag, fun p hp => ?_⟩
    obtain ⟨hs, he, hw⟩ := hb.mine p hp
    exact ⟨hs, he, kept p hp hw⟩
  | proceeded socket run safe call open_ ih =>
    obtain ⟨hc, hb⟩ := ih
    have hkeeps := connectionProc_keeps hc hb safe
    exact ⟨connectionProc_valid hc call open_, (hkeeps.2 _ call).after⟩
  | unblockedRead run call ih =>
    obtain ⟨hc, hb⟩ := ih
    refine ⟨connectionUnblockRead_valid hc call ?_, ((connectionUnblockRead_keeps hb).2 _ call).after⟩
    rcases connectionUnblockRead_result call with hr | hr <;> rw [hr] <;> decide
  | unblockedWrite run call ih =>
    obtain ⟨hc, hb⟩ := ih
    refine ⟨connectionUnblockWrite_valid hc call ?_,
      ((connectionUnblockWrite_keeps hb).2 _ call).after⟩
    rcases connectionUnblockWrite_result call with hr | hr <;> rw [hr] <;> decide

/-- In any run: the flag says whether a buffer is owned, and the next call passes to free exactly
that buffer, once and in time, if and only if it does not lose it. -/
theorem keyBuffer_freed_iff (run : BufferRun owned c w) :
    (c.flags.allocatedBuffer = true ↔ ∃ p, owned = some p ∧ KeyBuffer w p) ∧
      (∀ socket, StepKeeps owned (connectionProc serverServices socket c w) ↔
        ¬ LosesBuffer socket c) ∧
      StepKeeps owned (connectionUnblockRead serverServices c w) ∧
      StepKeeps owned (connectionUnblockWrite serverServices c w) := by
  obtain ⟨hc, hb⟩ := run.sound
  refine ⟨?_, fun socket => connectionProc_keeps_iff hc hb, connectionUnblockRead_keeps hb,
    connectionUnblockWrite_keeps hb⟩
  constructor
  · intro hset
    obtain ⟨p, hp, -, -, -, hw⟩ := hb.body hc hset
    exact ⟨p, hp, hw⟩
  · rintro ⟨p, rfl, -⟩
    exact hb.flag

end

/-! ### Requests for a key of one byte -/

def emptyWorld : World System :=
  ⟨fun _ _ => 0, memoryQueueOpen 64, ⟨fun _ => 0, []⟩, ⟨false, false, 0, 0, false⟩, [], 0⟩

def arrived (bytes : List UInt8) : Socket := ⟨bytes, false, 0, false⟩

/- A GET frees its buffer when the key has arrived. -/
theorem keyBuffer_freed_get : ∃ p c w, BufferRun (some p) c w ∧
    StepKeeps (some p) (connectionProc serverServices (arrived [97]) c w) := by
  have hheader := (BufferRun.opened 0 (fun _ => 0) (fun _ => 0) emptyWorld).proceeded
    (arrived [1, 0, 0, 1]) (fun h => Bool.false_ne_true h.1) rfl (by decide)
  have hget := hheader.proceeded (arrived [1, 0]) (fun h => Bool.false_ne_true h.1) rfl (by decide)
  exact ⟨_, _, _, hget, ((keyBuffer_freed_iff hget).2.1 (arrived [97])).mpr (by decide)⟩

/- If the socket fails instead, free gets a pointer behind the header. A DELETE frees its buffer
and keeps the flag. -/
theorem key_buffer_misfreed :
    (∃ p c w, BufferRun (some p) c w ∧
      connectionProc serverServices ⟨[], false, 0, true⟩ c w = .error .invalidFree) ∧
    ∃ p c w o, BufferRun (some p) c w ∧
      connectionProc serverServices (arrived [97]) c w = .ok o ∧
      o.connection.flags.allocatedBuffer = true ∧ ownedAfter (some p) o.events = none := by
  have hopen := BufferRun.opened 0 (fun _ => 0) (fun _ => 0) emptyWorld
  have hheader := hopen.proceeded (arrived [1, 0, 0, 1]) (fun h => Bool.false_ne_true h.1) rfl
    (by decide)
  have hget := hheader.proceeded (arrived [1, 0]) (fun h => Bool.false_ne_true h.1) rfl (by decide)
  have hheader' := hopen.proceeded (arrived [1, 0, 0, 3]) (fun h => Bool.false_ne_true h.1) rfl
    (by decide)
  have hdelete := hheader'.proceeded (arrived [1, 0]) (fun h => Bool.false_ne_true h.1) rfl
    (by decide)
  exact ⟨⟨_, _, _, hget, rfl⟩, _, _, _, _, hdelete, rfl, rfl, rfl⟩

end CacheServer
