import CacheServer.Model.EntryHeader
import Mathlib.Logic.Function.Basic

/-!
# The hash table (hashmap.c)

`struct hashmap` with its buckets as a function of the bucket number, for items
of any type. The two callbacks come with each call, because those of
entry_hash_map.c read the keys through pointers; the stored hash is the one that
`hash` gave when the item came in. malloc is asked twice for every new table and
`Mallocs` are its answers.
-/

namespace CacheServer.RobinHood

structure Bucket (α : Type) where
  hash : Nat
  dib : Nat
  item : α
  deriving DecidableEq, Repr

structure Callbacks (α : Type) where
  hash : α → Nat
  compare : α → α → Int

structure Hashmap (α : Type) where
  oom : Bool
  cap : Nat
  nbuckets : Nat
  count : Nat
  mask : Nat
  growat : Nat
  shrinkat : Nat
  buckets : Nat → Bucket α

-- the answers to the malloc of the map and to that of its buckets
structure Mallocs where
  map : Bool
  buckets : Bool
  deriving DecidableEq, Repr

variable {α : Type}

-- struct bucket: hash:48, dib:16
def hashSize : Nat := 2 ^ 48
def dibSize : Nat := 2 ^ 16

/-- `get_hash`: the shifts leave the bits that a bucket keeps. -/
def getHash (cb : Callbacks α) (key : α) : Nat := cb.hash key % hashSize

/-! ### hashmap_new -/

/-- The doubling of the `int` ncap; its overflow is undefined. -/
def doubleCap (cap : Nat) : Nat → Nat → Except Fault Nat
  | 0, _ => .error .outOfFuel
  | fuel + 1, ncap =>
    if ncap < cap then
      if 2 ^ 31 ≤ ncap * 2 then .error .outOfBounds else doubleCap cap fuel (ncap * 2)
    else .ok ncap

def initialCap (cap : Nat) : Except Fault Nat :=
  if cap < 16 then .ok 16 else doubleCap cap 32 16

-- memset(buckets, 0, ..)
def zeroed [Inhabited α] : Nat → Bucket α := fun _ => ⟨0, 0, default⟩

-- nbuckets * 0.75 and nbuckets * 0.10, as size_t
def growAt (nbuckets : Nat) : Nat := nbuckets * 3 / 4
def shrinkAt (nbuckets : Nat) : Nat := nbuckets / 10

/-- `hashmap_new_with_allocator` -/
def hashmapNew [Inhabited α] (mallocs : Mallocs) (cap : Nat) : Except Fault (Option (Hashmap α)) :=
  match initialCap cap with
  | .error fault => .error fault
  | .ok cap =>
    if ¬ mallocs.map then .ok none
    else if ¬ mallocs.buckets then .ok none
    else .ok (some {
      oom := false
      cap
      nbuckets := cap
      count := 0
      mask := cap - 1
      growat := growAt cap
      shrinkat := shrinkAt cap
      buckets := zeroed })

/-! ### Probing -/

/-- The loop of `hashmap_set`, and that of `resize`, which has no test: what the entry
replaces is handed back. The loop of a full table never ends, so that fuel for one round
is all that a loop needs. -/
def placeLoop (test : Bucket α → Bucket α → Bool) (mask : Nat) :
    Nat → (Nat → Bucket α) → Bucket α → Nat → Except Fault (Option α × (Nat → Bucket α))
  | 0, _, _, _ => .error .outOfFuel
  | fuel + 1, buckets, entry, i =>
    let bucket := buckets i
    if bucket.dib = 0 then .ok (none, Function.update buckets i entry)
    else if test entry bucket then
      .ok (some bucket.item, Function.update buckets i { bucket with item := entry.item })
    else
      let (buckets, entry) :=
        if bucket.dib < entry.dib then (Function.update buckets i entry, bucket)
        else (buckets, entry)
      placeLoop test mask fuel buckets { entry with dib := (entry.dib + 1) % dibSize }
        ((i + 1) &&& mask)

/-- The test of a bucket against the hash and the item of an entry. -/
def same (cb : Callbacks α) (hash : Nat) (key : α) (bucket : Bucket α) : Bool :=
  bucket.hash = hash ∧ cb.compare key bucket.item = 0

/-- The loop of `hashmap_get` and `hashmap_delete`: the bucket of the key. -/
def findLoop (cb : Callbacks α) (buckets : Nat → Bucket α) (mask hash : Nat) (key : α) :
    Nat → Nat → Except Fault (Option Nat)
  | 0, _ => .error .outOfFuel
  | fuel + 1, i =>
    let bucket := buckets i
    if bucket.dib = 0 then .ok none
    else if same cb hash key bucket then .ok (some i)
    else findLoop cb buckets mask hash key fuel ((i + 1) &&& mask)

/-- The inner loop of `hashmap_delete`, with `prev` the bucket before `i`. -/
def shiftLoop (mask : Nat) : Nat → (Nat → Bucket α) → Nat → Except Fault (Nat → Bucket α)
  | 0, _, _ => .error .outOfFuel
  | fuel + 1, buckets, prev =>
    let i := (prev + 1) &&& mask
    let bucket := buckets i
    if bucket.dib ≤ 1 then .ok (Function.update buckets prev { buckets prev with dib := 0 })
    else
      shiftLoop mask fuel (Function.update buckets prev { bucket with dib := bucket.dib - 1 }) i

/-! ### resize -/

/-- The loop of `resize` over the buckets of the old table. What it writes into the old
table is not read again. -/
def moveAll (mask nbuckets : Nat) (old : Nat → Bucket α) :
    List Nat → (Nat → Bucket α) → Except Fault (Nat → Bucket α)
  | [], buckets => .ok buckets
  | i :: rest, buckets =>
    let entry := old i
    if entry.dib = 0 then moveAll mask nbuckets old rest buckets
    else
      match placeLoop (fun _ _ => false) mask nbuckets buckets { entry with dib := 1 }
          (entry.hash &&& mask) with
      | .error fault => .error fault
      | .ok (_, buckets) => moveAll mask nbuckets old rest buckets

/-- `resize` -/
def resize [Inhabited α] (mallocs : Mallocs) (map : Hashmap α) (newCap : Nat) :
    Except Fault (Bool × Hashmap α) :=
  match hashmapNew mallocs newCap with
  | .error fault => .error fault
  | .ok none => .ok (false, map)
  | .ok (some map2) =>
    match moveAll map2.mask map2.nbuckets map.buckets (List.range map.nbuckets) map2.buckets with
    | .error fault => .error fault
    | .ok buckets => .ok (true, { map with
        buckets
        nbuckets := map2.nbuckets
        mask := map2.mask
        growat := map2.growat
        shrinkat := map2.shrinkat })

/-! ### The calls -/

/-- `hashmap_set` once the table is large enough. -/
def insert (cb : Callbacks α) (map : Hashmap α) (item : α) :
    Except Fault (Option α × Hashmap α) :=
  let entry : Bucket α := ⟨getHash cb item, 1, item⟩
  match placeLoop (fun entry bucket => same cb entry.hash entry.item bucket) map.mask map.nbuckets
      map.buckets entry (entry.hash &&& map.mask) with
  | .error fault => .error fault
  | .ok (none, buckets) => .ok (none, { map with buckets, count := map.count + 1 })
  | .ok (some old, buckets) => .ok (some old, { map with buckets })

/-- `hashmap_set` -/
def hashmapSet [Inhabited α] (cb : Callbacks α) (mallocs : Mallocs) (map : Hashmap α) (item : α) :
    Except Fault (Option α × Hashmap α) :=
  let map := { map with oom := false }
  if map.count = map.growat then
    match resize mallocs map (map.nbuckets * 2) with
    | .error fault => .error fault
    | .ok (false, map) => .ok (none, { map with oom := true })
    | .ok (true, map) => insert cb map item
  else insert cb map item

/-- `hashmap_get` -/
def hashmapGet (cb : Callbacks α) (map : Hashmap α) (key : α) : Except Fault (Option α) :=
  match findLoop cb map.buckets map.mask (getHash cb key) key map.nbuckets
      (getHash cb key &&& map.mask) with
  | .error fault => .error fault
  | .ok none => .ok none
  | .ok (some i) => .ok (some (map.buckets i).item)

/-- `hashmap_probe` -/
def hashmapProbe (map : Hashmap α) (position : Nat) : Option α :=
  let bucket := map.buckets (position &&& map.mask)
  if bucket.dib = 0 then none else some bucket.item

/-- `hashmap_delete` -/
def hashmapDelete [Inhabited α] (cb : Callbacks α) (mallocs : Mallocs) (map : Hashmap α)
    (key : α) : Except Fault (Option α × Hashmap α) :=
  let map := { map with oom := false }
  match findLoop cb map.buckets map.mask (getHash cb key) key map.nbuckets
      (getHash cb key &&& map.mask) with
  | .error fault => .error fault
  | .ok none => .ok (none, map)
  | .ok (some i) =>
    let spare := (map.buckets i).item
    let buckets := Function.update map.buckets i { map.buckets i with dib := 0 }
    match shiftLoop map.mask map.nbuckets buckets i with
    | .error fault => .error fault
    | .ok buckets =>
      let map := { map with buckets, count := map.count - 1 }
      if map.nbuckets > map.cap ∧ map.count ≤ map.shrinkat then
        -- the result is ignored: a table that stays large is as good
        match resize mallocs map (map.nbuckets / 2) with
        | .error fault => .error fault
        | .ok (_, map) => .ok (some spare, map)
      else .ok (some spare, map)

/-- `hashmap_clear`. Where its malloc fails the old block serves, which has to have room for
`cap` buckets. -/
def hashmapClear [Inhabited α] (updateCap malloced : Bool) (map : Hashmap α) :
    Except Fault (Hashmap α) :=
  let cap := if updateCap then map.nbuckets else map.cap
  if map.nbuckets < cap ∧ ¬ malloced then .error .outOfBounds
  else .ok { map with
    count := 0
    cap
    nbuckets := cap
    buckets := zeroed
    mask := cap - 1
    growat := growAt cap
    shrinkat := shrinkAt cap }

/-- `hashmap_scan`, with `iter` a step on the caller's udata. -/
def scanLoop {β : Type} (iter : α → β → Bool × β) (buckets : Nat → Bucket α) :
    List Nat → β → Bool × β
  | [], udata => (true, udata)
  | i :: rest, udata =>
    if (buckets i).dib = 0 then scanLoop iter buckets rest udata
    else
      match iter (buckets i).item udata with
      | (false, udata) => (false, udata)
      | (true, udata) => scanLoop iter buckets rest udata

def hashmapScan {β : Type} (iter : α → β → Bool × β) (map : Hashmap α) (udata : β) : Bool × β :=
  scanLoop iter map.buckets (List.range map.nbuckets) udata

/-- `hashmap_iter`: the next item and the cursor behind it. -/
def iterLoop (map : Hashmap α) : Nat → Nat → Option α × Nat
  | 0, i => (none, i)
  | rounds + 1, i =>
    if (map.buckets i).dib = 0 then iterLoop map rounds (i + 1)
    else (some (map.buckets i).item, i + 1)

def hashmapIter (map : Hashmap α) (i : Nat) : Option α × Nat := iterLoop map (map.nbuckets - i) i

end CacheServer.RobinHood
