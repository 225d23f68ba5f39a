import CacheServer.Model.EntryHashMap

/-!
# The ring allocator (memory_queue.c)

`context.buffer` is the block `Block.ring` of the memory. Reading or writing a
header that does not lie within the first `capacity_bytes` bytes of the buffer
is undefined behaviour and ends the run (`Fault.outOfBounds`).
-/

namespace CacheServer
open EntryHeader

/-- `memory_queue_result_t` -/
inductive MemoryQueueResult where
  | success
  | none
  | outOfMemory
  | writeBlocked
  deriving DecidableEq, Repr

/-- `memory_queue_context_t` without the buffer. -/
structure MemoryQueueContext where
  entryCount : Nat
  occupiedBytes : Nat
  capacityBytes : Nat
  readIndex : Nat
  writeIndex : Nat
  deriving DecidableEq, Repr

/-- What memory_queue.c asks of entry_hash_map.c. -/
class KeyIndex (ι : Type) where
  delete : Memory → ι → Pointer → Except Fault (ι × Memory)

instance : KeyIndex Hashmap where
  delete m hashmap keyHeader := .ok (entryHashMapDelete hashmap m keyHeader)

/-- The memory with the static contexts of memory_queue.c and entry_hash_map.c. -/
structure StoreOver (ι : Type) where
  memory : Memory
  queue : MemoryQueueContext
  hashmap : ι

abbrev Store := StoreOver Hashmap

/-- `memory_queue_open` where malloc succeeds; `memory` has whatever malloc left in
the buffer. -/
def memoryQueueOpen (capacityBytes : Nat) : MemoryQueueContext :=
  ⟨0, 0, capacityBytes, 0, 0⟩

/-- `uint32_t total_size` -/
def totalSize (keySize valueSize : Nat) : Nat :=
  (entryHeaderSize + keySize + valueSize) % 2 ^ 32

/-- `a - b` on `uint64_t` -/
def sub64 (a b : Nat) : Nat := (a + 2 ^ 64 - b) % 2 ^ 64

def accessHeader {α : Type} (q : MemoryQueueContext) (p : Pointer) (k : Except Fault α) :
    Except Fault α :=
  if p.offset + entryHeaderSize ≤ q.capacityBytes then k else .error .outOfBounds

def Store.deleteKey (s : Store) (keyHeader : Pointer) : Store :=
  let (hashmap, memory) := entryHashMapDelete s.hashmap s.memory keyHeader
  { s with hashmap, memory }

section
variable {ι : Type} [KeyIndex ι]

def StoreOver.deleteKey (s : StoreOver ι) (keyHeader : Pointer) : Except Fault (StoreOver ι) :=
  match KeyIndex.delete s.memory s.hashmap keyHeader with
  | .error fault => .error fault
  | .ok (hashmap, memory) => .ok { s with hashmap, memory }

/-- `remove_entry` -/
def removeEntry (s : StoreOver ι) (entryHeader : Pointer) :
    Except Fault (MemoryQueueResult × StoreOver ι) :=
  accessHeader s.queue entryHeader <|
    let size := totalSize (keySize s.memory entryHeader) (valueSize s.memory entryHeader)
    if locks s.memory entryHeader ≠ 0 then .ok (.writeBlocked, s)
    else
      let readIndex := s.queue.readIndex + size
      let s := { s with queue := { s.queue with
        entryCount := s.queue.entryCount - 1
        readIndex := readIndex
        occupiedBytes := sub64 s.queue.occupiedBytes size } }
      match (if active s.memory entryHeader ≠ 0 then s.deleteKey entryHeader else .ok s) with
      | .error fault => .error fault
      | .ok s =>
        accessHeader s.queue (ringPointer readIndex) <|
          if endOfBuffer s.memory (ringPointer readIndex) ≠ 0 then
            .ok (.success, { s with queue := { s.queue with readIndex := 0 } })
          else .ok (.success, s)

/-- `force_clean` -/
def forceClean (s : StoreOver ι) : Except Fault (MemoryQueueResult × StoreOver ι) :=
  if s.queue.entryCount > 0 then
    let entryHeader := ringPointer s.queue.readIndex
    match removeEntry s entryHeader with
    | .error fault => .error fault
    | .ok (result, s) =>
      if result = .writeBlocked ∧ active s.memory entryHeader ≠ 0 then
        match StoreOver.deleteKey { s with memory := setActive s.memory entryHeader 0 }
            entryHeader with
        | .error fault => .error fault
        | .ok s => .ok (result, s)
      else .ok (result, s)
  else .error .assertion

/-- A loop of `memory_queue_allocate` that calls `force_clean` while `cond` holds. The
assertion of `force_clean` bounds the number of rounds by `entry_count`. -/
def cleanWhile (cond : MemoryQueueContext → Bool) :
    Nat → StoreOver ι → Except Fault (MemoryQueueResult × StoreOver ι)
  | 0, _ => .error .outOfFuel
  | fuel + 1, s =>
    if cond s.queue then
      match forceClean s with
      | .error fault => .error fault
      | .ok (result, s) =>
        if result ≠ .success then .ok (result, s) else cleanWhile cond fuel s
    else .ok (.success, s)

end

/-- The condition of the loop that empties the end of the buffer before a wrap. -/
def aheadOfWrite (q : MemoryQueueContext) : Bool := q.writeIndex < q.readIndex

/-- The condition of the loop that makes room for an entry at `write_index`. -/
def inTheWay (size : Nat) (q : MemoryQueueContext) : Bool :=
  q.entryCount > 0 ∧ q.writeIndex ≤ q.readIndex ∧
    q.writeIndex + size + entryHeaderSize ≥ q.readIndex

/-- The header that `memory_queue_allocate` writes. -/
def writeHeader (m : Memory) (p : Pointer) (keySize valueSize expiry : Nat) : Memory :=
  let m := setActive m p 0
  let m := setEndOfBuffer m p 0
  let m := setKeySize m p keySize
  let m := setValueSize m p valueSize
  let m := setExpiry m p expiry
  setLocks m p 0

theorem writeHeader_outside (m : Memory) (p : Pointer) (k v e : Nat) {b : Block} {a : Nat}
    (h : b ≠ p.block ∨ a < p.offset ∨ p.offset + entryHeaderSize ≤ a) :
    writeHeader m p k v e b a = m b a := by
  unfold entryHeaderSize at h
  have hne : b ≠ p.block ∨ a ≠ p.offset := h.imp_right fun ha => by omega
  unfold writeHeader setLocks setExpiry setValueSize setKeySize
  rw [store_outside _ _ _ _ _ (h.imp_right fun ha => by omega),
    store_outside _ _ _ _ _ (h.imp_right fun ha => by omega),
    store_outside _ _ _ _ _ (h.imp_right fun ha => by omega),
    store_outside _ _ _ _ _ (h.imp_right fun ha => by omega),
    setEndOfBuffer_outside _ _ _ hne, setActive_outside _ _ _ hne]

section
variable (m : Memory) (p : Pointer) (k v e : Nat)

theorem keySize_writeHeader : keySize (writeHeader m p k v e) p = k % 2 ^ 16 := by
  unfold writeHeader setLocks setExpiry setValueSize setKeySize keySize
  rw [load_store_other _ _ _ _ _ _ _ (by omega), load_store_other _ _ _ _ _ _ _ (by omega),
    load_store_other _ _ _ _ _ _ _ (by omega), load_store_same]
  rfl

theorem valueSize_writeHeader : valueSize (writeHeader m p k v e) p = v % 2 ^ 32 := by
  unfold writeHeader setLocks setExpiry setValueSize valueSize
  rw [load_store_other _ _ _ _ _ _ _ (by omega), load_store_other _ _ _ _ _ _ _ (by omega),
    load_store_same]
  rfl

theorem locks_writeHeader : locks (writeHeader m p k v e) p = 0 := by
  unfold writeHeader setLocks locks
  rw [load_store_same, Nat.zero_mod]

/- The two flags lie in the word that holds expiry; it is written after them. -/
theorem flags_writeHeader : load (writeHeader m p k v e) p 0 8 % 4 = 0 := by
  have hw : load (writeHeader m p k v e) p 0 8 % 4 =
      load (setEndOfBuffer (setActive m p 0) p 0) p 0 8 % 4 := by
    unfold writeHeader setLocks setExpiry setValueSize setKeySize
    rw [load_store_other _ _ _ _ _ _ _ (by omega), load_store_same,
      load_store_other _ _ _ _ _ _ _ (by omega), load_store_other _ _ _ _ _ _ _ (by omega)]
    omega
  have ha := active_eq_load (setEndOfBuffer (setActive m p 0) p 0) p
  have hb := endOfBuffer_eq_load (setEndOfBuffer (setActive m p 0) p 0) p
  simp only [active_setEndOfBuffer, active_setActive, endOfBuffer_setEndOfBuffer] at ha hb
  omega

theorem active_writeHeader : active (writeHeader m p k v e) p = 0 := by
  have h := flags_writeHeader m p k v e
  rw [active_eq_load]
  omega

theorem endOfBuffer_writeHeader : endOfBuffer (writeHeader m p k v e) p = 0 := by
  have h := flags_writeHeader m p k v e
  rw [endOfBuffer_eq_load]
  omega

end

/-- The wrap of `memory_queue_allocate`: the marker at `write_index`, then both indexes. -/
def wrapQueue {ι : Type} (s : StoreOver ι) : StoreOver ι :=
  { s with
    memory := setEndOfBuffer s.memory (ringPointer s.queue.writeIndex) 1
    queue := { s.queue with
      readIndex := if s.queue.readIndex = s.queue.writeIndex then 0 else s.queue.readIndex
      writeIndex := 0 } }

section
variable {ι : Type} [KeyIndex ι]

/-- `memory_queue_allocate` from the second loop on, with `*entry_header` set. -/
def allocateAt (s : StoreOver ι) (entryHeader : Pointer) (keySize valueSize expiry : Nat) :
    Except Fault (MemoryQueueResult × Option Pointer × StoreOver ι) :=
  let size := totalSize keySize valueSize
  match cleanWhile (inTheWay size) (s.queue.entryCount + 1) s with
  | .error fault => .error fault
  | .ok (result, s) =>
    if result ≠ .success then .ok (result, some entryHeader, s)
    else accessHeader s.queue entryHeader <|
      .ok (.success, some entryHeader, { s with
        memory := writeHeader s.memory entryHeader keySize valueSize expiry
        queue := { s.queue with
          entryCount := s.queue.entryCount + 1
          writeIndex := s.queue.writeIndex + size
          occupiedBytes := s.queue.occupiedBytes + size } })

/-- `memory_queue_allocate`; `entryHeader` is `*entry_header` before the call, and the
returned pointer is its value after it. -/
def memoryQueueAllocate (s : StoreOver ι) (keySize valueSize expiry : Nat)
    (entryHeader : Option Pointer) :
    Except Fault (MemoryQueueResult × Option Pointer × StoreOver ι) :=
  let size := totalSize keySize valueSize
  if size > s.queue.capacityBytes then .ok (.outOfMemory, entryHeader, s)
  else
    let entryHeader := ringPointer s.queue.writeIndex
    if s.queue.writeIndex + size + entryHeaderSize ≥ s.queue.capacityBytes then
      match cleanWhile aheadOfWrite (s.queue.entryCount + 1) s with
      | .error fault => .error fault
      | .ok (result, s) =>
        if result ≠ .success then .ok (result, some entryHeader, s)
        else accessHeader s.queue entryHeader <|
          allocateAt (wrapQueue s) (ringPointer 0) keySize valueSize expiry
    else allocateAt s entryHeader keySize valueSize expiry

/-- `memory_queue_clean` -/
def memoryQueueClean (s : StoreOver ι) (time : Nat) :
    Except Fault (MemoryQueueResult × StoreOver ι) :=
  let entryHeader := ringPointer s.queue.readIndex
  if s.queue.entryCount = 0 then .ok (.none, s)
  else accessHeader s.queue entryHeader <|
    if active s.memory entryHeader = 0 ∨ expiry s.memory entryHeader ≤ time then
      removeEntry s entryHeader
    else .ok (.none, s)

end

/-! ### Over the associative array -/

section
variable (s : Store) (entryHeader : Pointer)

theorem deleteKey_total : StoreOver.deleteKey s entryHeader = .ok (Store.deleteKey s entryHeader) := rfl

theorem removeEntry_total : removeEntry s entryHeader =
    accessHeader s.queue entryHeader (
      let size := totalSize (keySize s.memory entryHeader) (valueSize s.memory entryHeader)
      if locks s.memory entryHeader ≠ 0 then .ok (.writeBlocked, s)
      else
        let readIndex := s.queue.readIndex + size
        let s : Store := { s with queue := { s.queue with
          entryCount := s.queue.entryCount - 1
          readIndex := readIndex
          occupiedBytes := sub64 s.queue.occupiedBytes size } }
        let s := if active s.memory entryHeader ≠ 0 then Store.deleteKey s entryHeader else s
        accessHeader s.queue (ringPointer readIndex) (
          if endOfBuffer s.memory (ringPointer readIndex) ≠ 0 then
            .ok (.success, { s with queue := { s.queue with readIndex := 0 } })
          else .ok (.success, s))) := by
  unfold removeEntry
  by_cases ha : active s.memory entryHeader ≠ 0
  · simp only [if_pos ha, deleteKey_total]
  · simp only [if_neg ha]

theorem forceClean_total : forceClean s =
    if s.queue.entryCount > 0 then
      let entryHeader := ringPointer s.queue.readIndex
      match removeEntry s entryHeader with
      | .error fault => .error fault
      | .ok (result, s) =>
        if result = .writeBlocked ∧ active s.memory entryHeader ≠ 0 then
          .ok (result, Store.deleteKey { s with memory := setActive s.memory entryHeader 0 } entryHeader)
        else .ok (result, s)
    else .error .assertion := by
  simp only [forceClean, deleteKey_total]
  cases removeEntry s (ringPointer s.queue.readIndex) <;> rfl

end

end CacheServer
