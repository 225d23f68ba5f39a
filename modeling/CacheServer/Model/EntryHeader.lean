import CacheServer.Library.ByteArea

/-!
# Entry headers (entry_header.h, entry_header.c)

An entry is a 16 byte header followed by the key and the value. It lies in the
buffer of memory_queue, or in a block that malloc gave for the key of a GET or
DELETE. A pointer is a block with an offset into it; every field is read and
written where the compiler lays it out (little-endian, bit fields from bit 0):

  0  active : 1, end_of_buffer : 1, expiry : 62
  8  value_size    12  key_size    14  locks
-/

namespace CacheServer

/-- What ends a run of the program: a failed assertion, or undefined behaviour. -/
inductive Fault where
  | assertion
  | outOfBounds
  | nullPointer
  | useAfterFree
  | invalidFree
  | outOfFuel
  deriving DecidableEq, Repr

inductive Block where
  | ring
  | key (id : Nat)
  deriving DecidableEq, Repr

structure Pointer where
  block : Block
  offset : Nat
  deriving DecidableEq, Repr

def Pointer.add (p : Pointer) (n : Nat) : Pointer := { p with offset := p.offset + n }

theorem Pointer.add_add (p : Pointer) (a b : Nat) : (p.add a).add b = p.add (a + b) := by
  simp only [Pointer.add, Nat.add_assoc]

/-- `context.buffer + offset` of memory_queue.c. -/
def ringPointer (offset : Nat) : Pointer := ⟨.ring, offset⟩

abbrev Memory := Block → ByteArea

namespace Memory

def update (m : Memory) (b : Block) (area : ByteArea) : Memory := fun b' =>
  if b' = b then area else m b'

def read (m : Memory) (p : Pointer) (n : Nat) : List UInt8 :=
  (m p.block).read p.offset n

def write (m : Memory) (p : Pointer) (bs : List UInt8) : Memory :=
  m.update p.block ((m p.block).write p.offset bs)

@[simp] theorem update_same (m : Memory) (b : Block) (area : ByteArea) : m.update b area b = area := by
  simp [update]

theorem update_other (m : Memory) (area : ByteArea) {b b' : Block} (h : b' ≠ b) :
    m.update b area b' = m b' := by
  simp [update, h]

theorem write_outside (m : Memory) (p : Pointer) (bs : List UInt8) {b : Block} {a : Nat}
    (h : b ≠ p.block ∨ a < p.offset ∨ p.offset + bs.length ≤ a) : m.write p bs b a = m b a := by
  by_cases hb : b = p.block
  · subst hb
    have ha : a < p.offset ∨ p.offset + bs.length ≤ a := by simpa using h
    simp only [write, update_same, ByteArea.write_outside _ _ _ ha]
  · simp only [write, update_other _ _ hb]

theorem write_other (m : Memory) (p : Pointer) (bs : List UInt8) {b : Block} (h : b ≠ p.block) :
    m.write p bs b = m b :=
  update_other _ _ h

theorem write_append (m : Memory) (p : Pointer) (as bs : List UInt8) :
    m.write p (as ++ bs) = (m.write p as).write (p.add as.length) bs := by
  funext b
  by_cases hb : b = p.block
  · subst hb
    simp only [write, update_same, Pointer.add, ByteArea.write_append]
  · have hb' : b ≠ (p.add as.length).block := hb
    simp only [write, update_other _ _ hb, update_other _ _ hb']

theorem read_congr {m m' : Memory} {p : Pointer} {n : Nat}
    (h : ∀ a, p.offset ≤ a → a < p.offset + n → m' p.block a = m p.block a) :
    m'.read p n = m.read p n :=
  ByteArea.read_congr h

theorem read_write_same (m : Memory) (p : Pointer) (bs : List UInt8) :
    (m.write p bs).read p bs.length = bs := by
  simp only [read, write, update_same, ByteArea.read_write_same]

theorem read_add (m : Memory) (p : Pointer) (a b : Nat) :
    m.read p (a + b) = m.read p a ++ m.read (p.add a) b :=
  ByteArea.read_append ..

/-- Bytes written behind `n` others. -/
theorem read_write_next (m : Memory) (p : Pointer) (n : Nat) (bs : List UInt8) :
    (m.write (p.add n) bs).read p (n + bs.length) = m.read p n ++ bs := by
  simp only [read, write, Pointer.add, update_same, ByteArea.read_write_next]

end Memory

/-- `sizeof(entry_header_t)` -/
def entryHeaderSize : Nat := 16

namespace EntryHeader

def load (m : Memory) (p : Pointer) (field n : Nat) : Nat :=
  (m p.block).loadLE (p.offset + field) n

def store (m : Memory) (p : Pointer) (field n v : Nat) : Memory :=
  m.update p.block ((m p.block).storeLE (p.offset + field) n v)

def active (m : Memory) (p : Pointer) : Nat := (m p.block p.offset).toNat % 2

def endOfBuffer (m : Memory) (p : Pointer) : Nat := (m p.block p.offset).toNat / 2 % 2

def expiry (m : Memory) (p : Pointer) : Nat := load m p 0 8 / 4

def valueSize (m : Memory) (p : Pointer) : Nat := load m p 8 4

def keySize (m : Memory) (p : Pointer) : Nat := load m p 12 2

def locks (m : Memory) (p : Pointer) : Nat := load m p 14 2

/-- The first header byte with its two flag bits replaced. -/
def flagByte (b : UInt8) (active endOfBuffer : Nat) : UInt8 :=
  UInt8.ofNat (b.toNat / 4 * 4 + endOfBuffer % 2 * 2 + active % 2)

def setActive (m : Memory) (p : Pointer) (v : Nat) : Memory :=
  m.write p [flagByte (m p.block p.offset) v (endOfBuffer m p)]

def setEndOfBuffer (m : Memory) (p : Pointer) (v : Nat) : Memory :=
  m.write p [flagByte (m p.block p.offset) (active m p) v]

/-- The 62 bits of expiry are stored above the two flag bits. -/
def setExpiry (m : Memory) (p : Pointer) (v : Nat) : Memory :=
  store m p 0 8 (load m p 0 8 % 4 + 4 * (v % 2 ^ 62))

def setValueSize (m : Memory) (p : Pointer) (v : Nat) : Memory := store m p 8 4 v

def setKeySize (m : Memory) (p : Pointer) (v : Nat) : Memory := store m p 12 2 v

def setLocks (m : Memory) (p : Pointer) (v : Nat) : Memory := store m p 14 2 v

/-- The key bytes behind a header. -/
def key (m : Memory) (p : Pointer) : List UInt8 :=
  m.read (p.add entryHeaderSize) (keySize m p)

/-- The value bytes behind header and key. -/
def value (m : Memory) (p : Pointer) : List UInt8 :=
  m.read (p.add (entryHeaderSize + keySize m p)) (valueSize m p)

/-! ### What the accessors see of each other -/

theorem load_congr {m m' : Memory} {p : Pointer} {field n : Nat}
    (h : ∀ a, p.offset + field ≤ a → a < p.offset + field + n → m' p.block a = m p.block a) :
    load m' p field n = load m p field n :=
  ByteArea.loadLE_congr h

theorem store_outside (m : Memory) (p : Pointer) (field n v : Nat) {b : Block} {a : Nat}
    (h : b ≠ p.block ∨ a < p.offset + field ∨ p.offset + field + n ≤ a) :
    store m p field n v b a = m b a := by
  by_cases hb : b = p.block
  · subst hb
    have ha : a < p.offset + field ∨ p.offset + field + n ≤ a := by simpa using h
    simp only [store, Memory.update_same, ByteArea.storeLE_outside _ _ _ _ ha]
  · simp only [store, Memory.update_other _ _ hb]

theorem store_other (m : Memory) (p : Pointer) (field n v : Nat) {b : Block} (h : b ≠ p.block) :
    store m p field n v b = m b :=
  Memory.update_other _ _ h

theorem setLocks_other (m : Memory) (p : Pointer) (v : Nat) {b : Block} (h : b ≠ p.block) :
    setLocks m p v b = m b :=
  store_other m p 14 2 v h

theorem load_store_same (m : Memory) (p : Pointer) (field n v : Nat) :
    load (store m p field n v) p field n = v % 256 ^ n := by
  simp only [load, store, Memory.update_same, ByteArea.loadLE_storeLE_same]

theorem load_store_other (m : Memory) (p : Pointer) (field n v field' n' : Nat)
    (h : field' + n' ≤ field ∨ field + n ≤ field') :
    load (store m p field n v) p field' n' = load m p field' n' :=
  load_congr fun _ h1 h2 => store_outside m p field n v (by omega)

theorem keySize_lt (m : Memory) (p : Pointer) : keySize m p < 2 ^ 16 :=
  ByteArea.loadLE_lt _ _ 2

theorem valueSize_lt (m : Memory) (p : Pointer) : valueSize m p < 2 ^ 32 :=
  ByteArea.loadLE_lt _ _ 4

theorem locks_lt (m : Memory) (p : Pointer) : locks m p < 2 ^ 16 :=
  ByteArea.loadLE_lt _ _ 2

theorem load_eight (m : Memory) (p : Pointer) :
    load m p 0 8 = (m p.block p.offset).toNat + 256 * load m p 1 7 := by
  simp only [load, ByteArea.loadLE, ByteArea.read, ByteArea.decodeLE, Nat.add_zero]

theorem active_eq_load (m : Memory) (p : Pointer) : active m p = load m p 0 8 % 2 := by
  have h := load_eight m p
  unfold active
  omega

theorem endOfBuffer_eq_load (m : Memory) (p : Pointer) :
    endOfBuffer m p = load m p 0 8 / 2 % 2 := by
  have h := load_eight m p
  unfold endOfBuffer
  omega

theorem flagByte_toNat (b : UInt8) (x y : Nat) :
    (flagByte b x y).toNat = b.toNat / 4 * 4 + y % 2 * 2 + x % 2 := by
  have hb : b.toNat < 256 := b.toNat_lt
  simp only [flagByte, UInt8.toNat_ofNat']
  omega

theorem setActive_outside (m : Memory) (p : Pointer) (v : Nat) {b : Block} {a : Nat}
    (h : b ≠ p.block ∨ a ≠ p.offset) : setActive m p v b a = m b a :=
  Memory.write_outside m p _ (h.imp_right fun ha => by simp only [List.length_singleton]; omega)

theorem setActive_at (m : Memory) (p : Pointer) (v : Nat) :
    setActive m p v p.block p.offset = flagByte (m p.block p.offset) v (endOfBuffer m p) := by
  simp [setActive, Memory.write, ByteArea.write]

theorem setEndOfBuffer_outside (m : Memory) (p : Pointer) (v : Nat) {b : Block} {a : Nat}
    (h : b ≠ p.block ∨ a ≠ p.offset) : setEndOfBuffer m p v b a = m b a :=
  Memory.write_outside m p _ (h.imp_right fun ha => by simp only [List.length_singleton]; omega)

theorem setEndOfBuffer_at (m : Memory) (p : Pointer) (v : Nat) :
    setEndOfBuffer m p v p.block p.offset = flagByte (m p.block p.offset) (active m p) v := by
  simp [setEndOfBuffer, Memory.write, ByteArea.write]

@[simp] theorem active_setActive (m : Memory) (p : Pointer) (v : Nat) :
    active (setActive m p v) p = v % 2 := by
  simp only [active, setActive_at, flagByte_toNat]
  omega

@[simp] theorem endOfBuffer_setEndOfBuffer (m : Memory) (p : Pointer) (v : Nat) :
    endOfBuffer (setEndOfBuffer m p v) p = v % 2 := by
  simp only [endOfBuffer, setEndOfBuffer_at, flagByte_toNat]
  omega

theorem eq_or_apart (p q : Pointer) : q = p ∨ (q.block ≠ p.block ∨ q.offset ≠ p.offset) := by
  by_cases h : q = p
  · exact Or.inl h
  · refine Or.inr ?_
    by_contra hc
    push Not at hc
    exact h (by cases p; cases q; simp_all)

/- A flag is changed by its own setter only, whatever the two pointers are. -/
@[simp] theorem endOfBuffer_setActive (m : Memory) (p q : Pointer) (v : Nat) :
    endOfBuffer (setActive m p v) q = endOfBuffer m q := by
  rcases eq_or_apart p q with h | h
  · subst h
    simp only [endOfBuffer, setActive_at, flagByte_toNat]
    omega
  · simp only [endOfBuffer, setActive_outside m p v h]

@[simp] theorem active_setEndOfBuffer (m : Memory) (p q : Pointer) (v : Nat) :
    active (setEndOfBuffer m p v) q = active m q := by
  rcases eq_or_apart p q with h | h
  · subst h
    simp only [active, setEndOfBuffer_at, flagByte_toNat]
    omega
  · simp only [active, setEndOfBuffer_outside m p v h]

theorem active_setActive_of_ne (m : Memory) (p q : Pointer) (v : Nat) (h : q ≠ p) :
    active (setActive m p v) q = active m q := by
  rcases eq_or_apart p q with he | he
  · exact absurd he h
  · simp only [active, setActive_outside m p v he]

theorem endOfBuffer_setEndOfBuffer_of_ne (m : Memory) (p q : Pointer) (v : Nat) (h : q ≠ p) :
    endOfBuffer (setEndOfBuffer m p v) q = endOfBuffer m q := by
  rcases eq_or_apart p q with he | he
  · exact absurd he h
  · simp only [endOfBuffer, setEndOfBuffer_outside m p v he]

theorem active_congr {m m' : Memory} {p : Pointer} (h : m' p.block p.offset = m p.block p.offset) :
    active m' p = active m p := by
  simp only [active, h]

theorem endOfBuffer_congr {m m' : Memory} {p : Pointer}
    (h : m' p.block p.offset = m p.block p.offset) : endOfBuffer m' p = endOfBuffer m p := by
  simp only [endOfBuffer, h]

end EntryHeader

open EntryHeader

/-- `entry_header_lock_event_t` -/
inductive EntryHeaderLockEvent where
  | none
  | blocked
  | readsUnblocked
  | writesUnblocked
  deriving DecidableEq, Repr

/-- `ENTRY_HEADER_LOCK_CAPACITY` -/
def entryHeaderLockCapacity : Nat := 0xFFFF

def entryHeaderAcquireLock (m : Memory) (p : Pointer) : EntryHeaderLockEvent × Memory :=
  if locks m p = entryHeaderLockCapacity then (.blocked, m)
  else (.none, setLocks m p (locks m p + 1))

/-- `locks--` on a `uint16_t`. The assertion `locks >= 0` holds of any unsigned value. -/
def entryHeaderReleaseLock (m : Memory) (p : Pointer) : EntryHeaderLockEvent × Memory :=
  let n := if locks m p = 0 then 0xFFFF else locks m p - 1
  let m := setLocks m p n
  if n = 0 then (.writesUnblocked, m)
  else if n = entryHeaderLockCapacity - 1 then (.readsUnblocked, m)
  else (.none, m)

end CacheServer
