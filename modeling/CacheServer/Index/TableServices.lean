import CacheServer.Index.TableIndex
import CacheServer.Index.TableQueue
import CacheServer.Model.TableServer

/-!
# connection.c over the hash table

One call of connection.c over the table, beside the same call over an
associative array with the same items. Of the services only the index differs,
and it is asked once in a call, for a completed body or a retried read.
-/

namespace CacheServer.RobinHood
open EntryHeader

/-- The world with an associative array for the table, and its answer to the next put. -/
def withArray (h : CacheServer.Hashmap) (oom : Bool) (w : World TableSystem) : World System where
  memory := w.memory
  system := {
    queue := w.system.queue
    hashmap := h
    answers := ⟨w.system.answers.mallocFails, oom, w.system.answers.timestamp,
      w.system.answers.entryExpiryMicros, false⟩
    keyBuffers := w.system.keyBuffers
    malloced := w.system.malloced }

def overArray (h : CacheServer.Hashmap) (oom : Bool) (o : Outcome TableSystem) : Outcome System :=
  ⟨o.result, o.connection, withArray h oom o.world, o.events⟩

/-- The two results are the same, and so are the items of the two indexes. -/
structure Alike (hash : List UInt8 → Nat) (oom : Bool) (table : Except Fault (Outcome TableSystem))
    (array : Except Fault (Outcome System)) (h : CacheServer.Hashmap) : Prop where
  same : array = table.map (overArray h oom)
  hash_eq : h.hash = hash
  indexes : ∀ o, table = .ok o → Indexes o.world.system.hashmap h

/-- The two results are the same, and no index has changed. -/
structure Unindexed (h : CacheServer.Hashmap) (oom : Bool) (w : World TableSystem)
    (table : Except Fault (Outcome TableSystem)) (array : Except Fault (Outcome System)) : Prop where
  same : array = table.map (overArray h oom)
  kept : ∀ o, table = .ok o → o.world.system.hashmap = w.system.hashmap

/-- The index may be asked for the entry. -/
structure Asked (keys : Set (List UInt8)) (M : KeyMap) (h : CacheServer.Hashmap)
    (w : World TableSystem) (p : Pointer) : Prop where
  indexes : Indexes w.system.hashmap h
  stored : Stored indexHash keys M h w.memory
  mem : key w.memory p ∈ keys
  small : w.system.hashmap.count + 1 < dibSize

section
variable {keys : Set (List UInt8)} {M : KeyMap} {h : CacheServer.Hashmap} {oom : Bool}
  {c : Connection} {w : World TableSystem} {p : Pointer} {es : List Slot}

/-! ### The services -/

theorem entryHashMapPut_hash (h : CacheServer.Hashmap) (m : Memory) (oom : Bool) (p : Pointer) :
    (CacheServer.entryHashMapPut h m oom p).2.1.hash = h.hash := by
  unfold CacheServer.entryHashMapPut CacheServer.Hashmap.set
  cases oom with
  | true => rfl
  | false =>
    simp only [Bool.false_eq_true, if_false]
    cases (h.items.find? (h.found m p)).map Prod.snd <;> rfl

theorem entryHashMapDelete_hash (h : CacheServer.Hashmap) (m : Memory) (p : Pointer) :
    (CacheServer.entryHashMapDelete h m p).1.hash = h.hash := by
  unfold CacheServer.entryHashMapDelete CacheServer.Hashmap.delete
  cases (h.items.find? (h.found m p)).map Prod.snd <;> rfl

theorem malloc_array (n : Nat) : serverServices.malloc n (withArray h oom w) =
    ((tableServices.malloc n w).1, withArray h oom (tableServices.malloc n w).2) := by
  change mallocKey w.system.answers.mallocFails n _ =
    ((mallocKey _ n w).1, withArray h oom (mallocKey _ n w).2)
  unfold mallocKey
  split <;> rfl

theorem free_array (b : Buffer) : serverServices.free b (withArray h oom w) =
    (tableServices.free b w).map (withArray h oom) := by
  change freeKey b _ = (freeKey b w).map _
  cases b with
  | header | arguments => rfl
  | memory p =>
    obtain ⟨block, offset⟩ := p
    cases block with
    | ring => rfl
    | key i =>
      cases offset with
      | succ n => rfl
      | zero =>
        change (if i ∈ w.system.keyBuffers then _ else _) = Except.map _
          (if i ∈ w.system.keyBuffers then _ else _)
        split <;> rfl

theorem free_table {b : Buffer} {w' : World TableSystem} (hf : tableServices.free b w = .ok w') :
    w'.system.hashmap = w.system.hashmap := by
  change freeKey b w = .ok w' at hf
  unfold freeKey at hf
  split at hf
  · split at hf <;> cases hf
    rfl
  · cases hf

theorem malloc_table (n : Nat) : (tableServices.malloc n w).2.system.hashmap = w.system.hashmap := by
  change (mallocKey _ n w).2.system.hashmap = _
  unfold mallocKey
  split <;> rfl

theorem allocate_array (oom : Bool) (hi : Inactive ((tableStore w).withArray h) es) (k v expiry : Nat)
    (entryHeader : Option Pointer) :
    serverServices.memoryQueueAllocate k v expiry entryHeader (withArray h oom w) =
        (tableServices.memoryQueueAllocate k v expiry entryHeader w).map (fun r =>
          (r.1, r.2.1, withArray h oom r.2.2)) ∧
      ∀ r, tableServices.memoryQueueAllocate k v expiry entryHeader w = .ok r →
        r.2.2.system.hashmap = w.system.hashmap := by
  obtain ⟨hsame, hkept⟩ := memoryQueueAllocate_array hi k v expiry entryHeader
  simp only [serverServices, tableServices]
  rw [show (withArray h oom w).store = (tableStore w).withArray h from rfl, hsame]
  cases hr : memoryQueueAllocate (tableStore w) k v expiry entryHeader with
  | error fault => exact ⟨rfl, fun r hs => by cases hs⟩
  | ok r =>
    refine ⟨rfl, fun r' hs => ?_⟩
    cases hs
    exact congrArg TableIndex.table (hkept r hr)

theorem get_array (oom : Bool) (ha : Asked keys M h w p) (hsep : Separates indexHash keys) :
    tableServices.entryHashMapGet p w = serverServices.entryHashMapGet p (withArray h oom w) := by
  obtain ⟨map', happly, -⟩ := ha.indexes.call ha.stored hsep (.get p) ha.mem trivial ha.small
  simp only [IndexCall.apply] at happly
  simp only [tableServices]
  cases hget : entryHashMapGet w.memory w.system.hashmap p with
  | error fault =>
    rw [hget] at happly
    cases happly
  | ok found =>
    rw [hget] at happly
    obtain ⟨hanswer, -⟩ := Prod.mk.inj (Except.ok.inj happly)
    exact IndexAnswer.get.inj hanswer

theorem put_array (ha : Asked keys M h w p) (hsep : Separates indexHash keys)
    (hapart : ∀ x ∈ w.system.hashmap.items, FlagOutside w.memory p x.2 ∧ FlagOutside w.memory x.2 p)
    (hoom : oom = decide (GrowthFails w.system.answers.mallocs w.system.hashmap)) :
    ∃ h', serverServices.entryHashMapPut p (withArray h oom w) =
        ((tableServices.entryHashMapPut p w).1, withArray h' oom (tableServices.entryHashMapPut p w).2) ∧
      h'.hash = h.hash ∧ Indexes (tableServices.entryHashMapPut p w).2.system.hashmap h' := by
  obtain ⟨map', happly, hi'⟩ :=
    ha.indexes.call ha.stored hsep (.put p w.system.answers.mallocs) ha.mem hapart ha.small
  simp only [IndexCall.apply, IndexCall.keyCall, KeyCall.apply, ← hoom] at happly hi'
  simp only [serverServices, tableServices]
  change _ = Except.ok (_, _, (CacheServer.entryHashMapPut h w.memory oom p).2.2) at happly
  cases hput : entryHashMapPut w.memory w.system.answers.mallocs w.system.hashmap p with
  | error fault =>
    rw [hput] at happly
    cases happly
  | ok r =>
    obtain ⟨failed, table, memory⟩ := r
    rw [hput] at happly
    obtain ⟨hanswer, hrest⟩ := Prod.mk.inj (Except.ok.inj happly)
    obtain ⟨rfl, hmemory⟩ := Prod.mk.inj hrest
    have hanswer : failed = (CacheServer.entryHashMapPut h w.memory oom p).1 :=
      IndexAnswer.put.inj hanswer
    have hmemory : memory = (CacheServer.entryHashMapPut h w.memory oom p).2.2 := hmemory
    refine ⟨(CacheServer.entryHashMapPut h w.memory oom p).2.1, ?_, entryHashMapPut_hash .., hi'⟩
    rw [hanswer, hmemory]
    rfl

theorem delete_array (oom : Bool) (ha : Asked keys M h w p) (hsep : Separates indexHash keys) :
    ∃ h', serverServices.entryHashMapDelete p (withArray h oom w) =
        withArray h' oom (tableServices.entryHashMapDelete p w) ∧
      h'.hash = h.hash ∧ Indexes (tableServices.entryHashMapDelete p w).system.hashmap h' := by
  obtain ⟨map', happly, hi'⟩ :=
    ha.indexes.call ha.stored hsep (.delete p w.system.answers.mallocs) ha.mem trivial ha.small
  simp only [IndexCall.apply, IndexCall.keyCall, KeyCall.apply] at happly hi'
  simp only [serverServices, tableServices]
  cases hdelete : entryHashMapDelete w.memory w.system.answers.mallocs w.system.hashmap p with
  | error fault =>
    rw [hdelete] at happly
    cases happly
  | ok r =>
    obtain ⟨table, memory⟩ := r
    rw [hdelete] at happly
    obtain ⟨-, hrest⟩ := Prod.mk.inj (Except.ok.inj happly)
    obtain ⟨rfl, hmemory⟩ := Prod.mk.inj hrest
    have hmemory : memory = (CacheServer.entryHashMapDelete h w.memory p).2 := hmemory
    refine ⟨(CacheServer.entryHashMapDelete h w.memory p).1, ?_, entryHashMapDelete_hash .., hi'⟩
    rw [hmemory]
    rfl

/-! ### connection.c -/

theorem Unindexed.ok {o : Outcome TableSystem} (hkept : o.world.system.hashmap = w.system.hashmap) :
    Unindexed h oom w (.ok o) (.ok (overArray h oom o)) := by
  refine ⟨rfl, fun o' hs => ?_⟩
  cases hs
  exact hkept

theorem Unindexed.error (fault : Fault) : Unindexed h oom w (.error fault) (.error fault) :=
  ⟨rfl, fun o hs => by cases hs⟩

theorem Unindexed.after {o : Outcome TableSystem} {o' : Outcome System} {w' : World TableSystem}
    (hu : Unindexed h oom w' (.ok o) (.ok o')) (hw : w'.system.hashmap = w.system.hashmap)
    (events : List Event) : Unindexed h oom w (.ok (o.after events)) (.ok (o'.after events)) := by
  obtain rfl : o' = overArray h oom o := Except.ok.inj hu.same
  exact .ok ((hu.kept o rfl).trans hw)

@[simp] theorem withArray_memory : (withArray h oom w).memory = w.memory := rfl

theorem attemptMemoryRead_array :
    attemptMemoryRead c (withArray h oom w) = overArray h oom (attemptMemoryRead c w) := by
  unfold attemptMemoryRead
  simp only [withArray_memory]
  split
  · rfl
  · split <;> rfl

theorem attemptMemoryRead_table (c : Connection) (w : World TableSystem) :
    (attemptMemoryRead c w).world.system.hashmap = w.system.hashmap := by
  unfold attemptMemoryRead
  split
  · rfl
  · split <;> rfl

theorem attemptMemoryWrite_array (c : Connection) (oom : Bool) (hi : Inactive ((tableStore w).withArray h) es) :
    Unindexed h oom w (attemptMemoryWrite tableServices c w)
      (attemptMemoryWrite serverServices c (withArray h oom w)) := by
  obtain ⟨hsame, hkept⟩ := allocate_array oom hi c.keySize c.valueSize
    (tableServices.timeGetTimestamp w + tableServices.entryExpiryMicros w) c.entryHeader
  unfold attemptMemoryWrite
  rw [show serverServices.timeGetTimestamp (withArray h oom w) = tableServices.timeGetTimestamp w from rfl,
    show serverServices.entryExpiryMicros (withArray h oom w) = tableServices.entryExpiryMicros w from rfl,
    hsame]
  generalize tableServices.memoryQueueAllocate _ _ _ _ w = r at hkept
  cases r with
  | error fault => exact .error fault
  | ok r =>
    have hkept := hkept r rfl
    obtain ⟨result, entryHeader, w'⟩ := r
    cases result with
    | outOfMemory | writeBlocked => exact .ok hkept
    | success | none =>
      cases entryHeader with
      | none => exact .error _
      | some p => exact .ok hkept

theorem finishRequest_array :
    Unindexed h oom w (.ok (finishRequest c w)) (.ok (finishRequest c (withArray h oom w))) := by
  unfold finishRequest
  split <;> exact .ok rfl

theorem eventReceivedHeader_array :
    Unindexed h oom w (.ok (eventReceivedHeader c w))
      (.ok (eventReceivedHeader c (withArray h oom w))) := by
  unfold eventReceivedHeader
  split
  · exact .ok rfl
  · simp only
    split <;> exact .ok rfl

theorem eventReceivedArguments_array (hi : Inactive ((tableStore w).withArray h) es) :
    Unindexed h oom w (eventReceivedArguments tableServices c w)
      (eventReceivedArguments serverServices c (withArray h oom w)) := by
  have hwrite := attemptMemoryWrite_array c oom hi
  unfold eventReceivedArguments
  have hkept := malloc_table (w := w) (entryHeaderSize + c.keySize)
  rw [malloc_array]
  generalize tableServices.malloc _ w = r at hkept
  obtain ⟨entryHeader, w'⟩ := r
  split
  · cases entryHeader <;> exact .ok hkept
  · cases entryHeader <;> exact .ok hkept
  · exact hwrite
  · exact .error _

theorem eventSentHeader_array :
    Unindexed h oom w (eventSentHeader c w) (eventSentHeader c (withArray h oom w)) := by
  unfold eventSentHeader
  simp only [withArray_memory]
  split
  iterate 8 exact finishRequest_array
  · split
    · exact .error _
    · exact .ok rfl
  · exact .error _

theorem eventSentBody_array :
    Unindexed h oom w (eventSentBody c w) (eventSentBody c (withArray h oom w)) := by
  unfold eventSentBody
  simp only [withArray_memory]
  split
  · rename_i p _ _
    have hworld : ({ withArray h oom w with memory := (entryHeaderReleaseLock w.memory p).2 } :
        World System) =
      withArray h oom { w with memory := (entryHeaderReleaseLock w.memory p).2 } := rfl
    simp only [hworld]
    refine finishRequest_array.after ?_ _
    rfl
  · exact .error _
  · exact .error _

theorem socketFailure_array :
    Unindexed h oom w (socketFailure tableServices c w)
      (socketFailure serverServices c (withArray h oom w)) := by
  unfold socketFailure
  have hfreed : (if c.flags.allocatedBuffer then serverServices.free c.buffer (withArray h oom w)
      else .ok (withArray h oom w)) =
    (if c.flags.allocatedBuffer then tableServices.free c.buffer w else .ok w).map (withArray h oom) := by
    rw [free_array]
    split <;> rfl
  have hkept : ∀ w', (if c.flags.allocatedBuffer then tableServices.free c.buffer w else .ok w) =
      .ok w' → w'.system.hashmap = w.system.hashmap := by
    intro w' hw
    split at hw
    · exact free_table hw
    · cases hw
      rfl
  rw [hfreed]
  generalize (if c.flags.allocatedBuffer then tableServices.free c.buffer w else .ok w) = r at hkept
  cases r with
  | error fault => exact .error fault
  | ok w' =>
    have hkept := hkept w' rfl
    simp only [Except.map, withArray_memory]
    split
    · split
      · exact .error _
      · exact .ok hkept
    · exact .ok hkept

theorem storeReceived_array (bytes : List UInt8) : storeReceived c (withArray h oom w) bytes =
    ((storeReceived c w bytes).1, withArray h oom (storeReceived c w bytes).2) := by
  unfold storeReceived
  split <;> rfl

theorem storeReceived_table (bytes : List UInt8) :
    (storeReceived c w bytes).2.system.hashmap = w.system.hashmap := by
  unfold storeReceived
  split <;> rfl

theorem pendingBytes_array : pendingBytes c (withArray h oom w) = pendingBytes c w := by
  unfold pendingBytes
  split <;> rfl

theorem connectionTransfer_array (h : CacheServer.Hashmap) (oom : Bool) (socket : Socket)
    (c : Connection) (w : World TableSystem) :
    Unindexed h oom w (connectionTransfer tableServices socket c w)
      (connectionTransfer serverServices socket c (withArray h oom w)) := by
  unfold connectionTransfer
  simp only [pendingBytes_array, storeReceived_array]
  split
  iterate 3
    · split
      · exact socketFailure_array
      iterate 2 exact .ok rfl
      · exact .ok (storeReceived_table _)
  iterate 2
    · split
      · exact socketFailure_array
      iterate 3 exact .ok rfl
  · exact .error _

/-- What a completed body finds and leaves. -/
theorem eventReceivedBody_array (hsep : Separates indexHash keys)
    (hi : Indexes w.system.hashmap h)
    (ha : ∀ p, c.entryHeader = some p → Asked keys M h w p)
    (hapart : c.requestType = some .put → ∀ p, c.entryHeader = some p →
      ∀ x ∈ w.system.hashmap.items, FlagOutside w.memory p x.2 ∧ FlagOutside w.memory x.2 p)
    (hoom : oom = decide (GrowthFails w.system.answers.mallocs w.system.hashmap)) :
    ∃ h', Alike h.hash oom (eventReceivedBody tableServices c w)
      (eventReceivedBody serverServices c (withArray h oom w)) h' := by
  have herror : ∀ fault h', h'.hash = h.hash → Alike h.hash oom (.error fault) (.error fault) h' :=
    fun fault h' hhash => ⟨rfl, hhash, fun o hs => by cases hs⟩
  unfold eventReceivedBody
  split
  · rename_i p type entry
    have hget := get_array oom (ha p entry) hsep
    refine ⟨h, ?_⟩
    simp only [← hget, free_array]
    cases hf : tableServices.free (.memory p) w with
    | error fault => exact herror fault h rfl
    | ok w' =>
      simp only [Except.map, attemptMemoryRead_array]
      refine ⟨rfl, rfl, fun o hs => ?_⟩
      cases hs
      change Indexes (attemptMemoryRead _ w').world.system.hashmap h
      rw [attemptMemoryRead_table, free_table hf]
      exact hi
  · rename_i p type entry
    obtain ⟨h', hdelete, hhash, hi'⟩ := delete_array oom (ha p entry) hsep
    refine ⟨h', ?_⟩
    simp only [hdelete, free_array]
    cases hf : tableServices.free (.memory p) (tableServices.entryHashMapDelete p w) with
    | error fault => exact herror fault h' hhash
    | ok w' =>
      refine ⟨rfl, hhash, fun o hs => ?_⟩
      cases hs
      change Indexes w'.system.hashmap h'
      rw [free_table hf]
      exact hi'
  · rename_i p type entry
    obtain ⟨h', hput, hhash, hi'⟩ := put_array (ha p entry) hsep (hapart type p entry) hoom
    refine ⟨h', ?_⟩
    rw [hput]
    generalize tableServices.entryHashMapPut p w = r at hi' ⊢
    obtain ⟨failed, w'⟩ := r
    cases failed with
    | true | false =>
      refine ⟨rfl, hhash, fun o hs => ?_⟩
      cases hs
      exact hi'
  · exact ⟨h, herror _ h rfl⟩
  · exact ⟨h, herror _ h rfl⟩
  · exact ⟨h, herror _ h rfl⟩

end

end CacheServer.RobinHood
