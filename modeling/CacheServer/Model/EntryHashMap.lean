import CacheServer.Model.EntryHeader

/-!
# The key index (entry_hash_map.c over hashmap.c)

hashmap.c is taken as an associative array of items under the two callbacks it
is opened with: an item is found for a key when the stored hash equals the hash
of the key and `entry_compare(key, item)` is 0. An item is an entry pointer; its
key is read through the pointer at every comparison, so the map says nothing by
itself about what the pointer leads to. `hash` stands for `entry_hash`
(`hashmap_sip` with the seeds, clipped by hashmap.c) on the key bytes.
-/

namespace CacheServer
open EntryHeader

structure Hashmap where
  hash : List UInt8 → Nat
  items : List (Nat × Pointer)

/-- `strncmp` on two blocks of one length: it stops at the first difference and
at a common NUL byte. -/
def strncmp : List UInt8 → List UInt8 → Int
  | a :: as, b :: bs =>
    if a ≠ b then (a.toNat : Int) - b.toNat
    else if a = 0 then 0
    else strncmp as bs
  | _, _ => 0

/-- `entry_compare` on the key bytes of the two entries. -/
def keyCompare (k1 k2 : List UInt8) : Int :=
  if k1.length ≠ k2.length then (if k1.length > k2.length then 1 else 0)
  else strncmp k1 k2

def entryCompare (m : Memory) (entry1 entry2 : Pointer) : Int :=
  keyCompare (key m entry1) (key m entry2)

def entryHash (h : Hashmap) (m : Memory) (entry : Pointer) : Nat := h.hash (key m entry)

namespace Hashmap

/-- The test that hashmap.c applies to a bucket while probing for `entry`. -/
def found (h : Hashmap) (m : Memory) (entry : Pointer) (item : Nat × Pointer) : Bool :=
  item.1 = entryHash h m entry ∧ entryCompare m entry item.2 = 0

/-- `hashmap_get` -/
def get (h : Hashmap) (m : Memory) (entry : Pointer) : Option Pointer :=
  (h.items.find? (h.found m entry)).map Prod.snd

/-- `hashmap_set`: `oom` is the failure to grow. An item that was found is replaced
and returned. -/
def set (h : Hashmap) (m : Memory) (oom : Bool) (entry : Pointer) : Option Pointer × Hashmap :=
  if oom then (none, h)
  else ((h.items.find? (h.found m entry)).map Prod.snd,
    { h with items := (entryHash h m entry, entry) :: h.items.eraseP (h.found m entry) })

/-- `hashmap_delete` -/
def delete (h : Hashmap) (m : Memory) (entry : Pointer) : Option Pointer × Hashmap :=
  ((h.items.find? (h.found m entry)).map Prod.snd,
    { h with items := h.items.eraseP (h.found m entry) })

end Hashmap

/-- `entry_hash_map_get` -/
def entryHashMapGet (h : Hashmap) (m : Memory) (keyHeader : Pointer) : Option Pointer :=
  h.get m keyHeader

/-- `entry_hash_map_put`: the result is `hashmap_oom` unless an entry was replaced. -/
def entryHashMapPut (h : Hashmap) (m : Memory) (oom : Bool) (entryHeader : Pointer) :
    Bool × Hashmap × Memory :=
  match h.set m oom entryHeader with
  | (some previousEntry, h') => (false, h', setActive m previousEntry 0)
  | (none, h') => (oom, h', m)

/-- `entry_hash_map_delete` -/
def entryHashMapDelete (h : Hashmap) (m : Memory) (keyHeader : Pointer) : Hashmap × Memory :=
  match h.delete m keyHeader with
  | (some previousEntry, h') => (h', setActive m previousEntry 0)
  | (none, h') => (h', m)

end CacheServer
