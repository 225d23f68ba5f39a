import CacheServer.Model.Server
import CacheServer.Model.TableIndex

/-!
# The server over the hash table (memory_queue.c and connection.c over hashmap.c)

The services behind connection.c with hashmap.c as it is: memory_queue.c over the
table, and entry_hash_map.c of TableIndex. connection.c itself is what it is in
Connection.
-/

namespace CacheServer.RobinHood
open EntryHeader

/-! ### memory_queue.c -/

/-- The table, and what malloc answers when it shrinks. -/
structure TableIndex where
  table : Hashmap Pointer
  mallocs : Mallocs

instance : KeyIndex TableIndex where
  delete m index keyHeader :=
    match RobinHood.entryHashMapDelete m index.mallocs index.table keyHeader with
    | .error fault => .error fault
    | .ok (table, memory) => .ok ({ index with table }, memory)

abbrev TableStore := StoreOver TableIndex

/-! ### The services behind connection.c -/

structure TableAnswers where
  mallocFails : Bool
  mallocs : Mallocs
  timestamp : Nat
  entryExpiryMicros : Nat

abbrev TableSystem := SystemOver (Hashmap Pointer) TableAnswers

def tableStore (w : World TableSystem) : TableStore :=
  ⟨w.memory, w.system.queue, ⟨w.system.hashmap, w.system.answers.mallocs⟩⟩

def withTableStore (w : World TableSystem) (s : TableStore) : World TableSystem :=
  ⟨s.memory, { w.system with queue := s.queue, hashmap := s.hashmap.table }⟩

-- A `Services` has no place for a call of the index that never returns. There is none on a
-- valid table with less than 2^16 - 1 items, and the runs below meet no other.
def tableServices : Services TableSystem where
  malloc size w := mallocKey w.system.answers.mallocFails size w
  free := freeKey
  timeGetTimestamp w := w.system.answers.timestamp
  entryExpiryMicros w := w.system.answers.entryExpiryMicros
  memoryQueueAllocate keySize valueSize expiry entryHeader w :=
    match CacheServer.memoryQueueAllocate (tableStore w) keySize valueSize expiry entryHeader with
    | .error fault => .error fault
    | .ok (result, entryHeader, s) => .ok (result, entryHeader, withTableStore w s)
  entryHashMapGet keyHeader w :=
    match RobinHood.entryHashMapGet w.memory w.system.hashmap keyHeader with
    | .error _ => none
    | .ok found => found
  entryHashMapPut entryHeader w :=
    match RobinHood.entryHashMapPut w.memory w.system.answers.mallocs w.system.hashmap entryHeader with
    | .error _ => (true, w)
    | .ok (failed, table, memory) => (failed, ⟨memory, { w.system with hashmap := table }⟩)
  entryHashMapDelete keyHeader w :=
    match RobinHood.entryHashMapDelete w.memory w.system.answers.mallocs w.system.hashmap keyHeader with
    | .error _ => w
    | .ok (table, memory) => ⟨memory, { w.system with hashmap := table }⟩

end CacheServer.RobinHood
