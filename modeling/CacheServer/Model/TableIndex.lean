import CacheServer.Model.EntryHashMap
import CacheServer.Model.RobinHood
import CacheServer.Model.SipHash

/-!
# The key index over the hash table (entry_hash_map.c)

The functions of entry_hash_map.c with hashmap.c as it is, where EntryHashMap has
an associative array. The items are entry pointers and the callbacks read the
keys through them.
-/

namespace CacheServer.RobinHood
open EntryHeader

-- a bucket of zeros
instance : Inhabited Pointer := ⟨⟨.ring, 0⟩⟩

def initialCapacity : Nat := 0
def seedValue : UInt64 := 0

/-- `entry_hash` on the key bytes. `hashmap_sip` returns on every key. -/
def keyHash (k : List UInt8) : Nat :=
  match SipHash.hashmapSip k seedValue seedValue with
  | .ok hash => hash.toNat
  | .error _ => 0

def entryCallbacks (m : Memory) : Callbacks Pointer where
  hash entry := keyHash (key m entry)
  compare := entryCompare m

/-- `entry_hash_map_open` -/
def entryHashMapOpen (mallocs : Mallocs) : Except Fault (Option (Hashmap Pointer)) :=
  hashmapNew mallocs initialCapacity

/-- `entry_hash_map_get` -/
def entryHashMapGet (m : Memory) (map : Hashmap Pointer) (keyHeader : Pointer) :
    Except Fault (Option Pointer) :=
  hashmapGet (entryCallbacks m) map keyHeader

/-- `entry_hash_map_put` -/
def entryHashMapPut (m : Memory) (mallocs : Mallocs) (map : Hashmap Pointer)
    (entryHeader : Pointer) : Except Fault (Bool × Hashmap Pointer × Memory) :=
  match hashmapSet (entryCallbacks m) mallocs map entryHeader with
  | .error fault => .error fault
  | .ok (some previousEntry, map) => .ok (false, map, setActive m previousEntry 0)
  | .ok (none, map) => .ok (map.oom, map, m)

/-- `entry_hash_map_delete` -/
def entryHashMapDelete (m : Memory) (mallocs : Mallocs) (map : Hashmap Pointer)
    (keyHeader : Pointer) : Except Fault (Hashmap Pointer × Memory) :=
  match hashmapDelete (entryCallbacks m) mallocs map keyHeader with
  | .error fault => .error fault
  | .ok (some previousEntry, map) => .ok (map, setActive m previousEntry 0)
  | .ok (none, map) => .ok (map, m)

end CacheServer.RobinHood
