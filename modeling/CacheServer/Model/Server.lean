import CacheServer.Model.Connection
import CacheServer.Model.BlockedConnections

/-!
# The server (cache_server.c)

`System` is what memory_queue.c, entry_hash_map.c and malloc keep, and
`serverServices` lets connection.c call them. `cacheServerProc` is one call of
`cache_server_proc`; what the kernel, the clock and malloc answer during the call
is an `Environment`.
-/

namespace CacheServer
open EntryHeader

/-! ### The services behind connection.c -/

-- what malloc answers to a key buffer, to hashmap.c and to a queue of blocked connections
structure Answers where
  mallocFails : Bool
  hashmapOom : Bool
  timestamp : Nat
  entryExpiryMicros : Nat
  queueMallocFails : Bool

/-- What memory_queue.c, entry_hash_map.c and malloc keep, over an index of type `ι`. -/
structure SystemOver (ι α : Type) where
  queue : MemoryQueueContext
  hashmap : ι
  answers : α
  keyBuffers : List Nat
  malloced : Nat

abbrev System := SystemOver Hashmap Answers

def World.store (w : World System) : Store := ⟨w.memory, w.system.queue, w.system.hashmap⟩

def World.withStore (w : World System) (s : Store) : World System :=
  ⟨s.memory, { w.system with queue := s.queue, hashmap := s.hashmap }⟩

section
variable {ι α : Type}

-- every block has a number of its own; its bytes are whatever the memory holds there
def mallocKey (mallocFails : Bool) (_size : Nat) (w : World (SystemOver ι α)) :
    Option Pointer × World (SystemOver ι α) :=
  if mallocFails then (none, w)
  else (some ⟨.key w.system.malloced, 0⟩, { w with system := { w.system with
    keyBuffers := w.system.malloced :: w.system.keyBuffers
    malloced := w.system.malloced + 1 } })

-- free of anything but a pointer that malloc gave and that is not yet freed is undefined
def freeKey (b : Buffer) (w : World (SystemOver ι α)) : Except Fault (World (SystemOver ι α)) :=
  match b with
  | .memory ⟨.key i, 0⟩ =>
    if i ∈ w.system.keyBuffers then
      .ok { w with system := { w.system with keyBuffers := w.system.keyBuffers.erase i } }
    else .error .invalidFree
  | _ => .error .invalidFree

end

def serverServices : Services System where
  malloc size w := mallocKey w.system.answers.mallocFails size w
  free := freeKey
  timeGetTimestamp w := w.system.answers.timestamp
  entryExpiryMicros w := w.system.answers.entryExpiryMicros
  memoryQueueAllocate keySize valueSize expiry entryHeader w :=
    match CacheServer.memoryQueueAllocate w.store keySize valueSize expiry entryHeader with
    | .error fault => .error fault
    | .ok (result, entryHeader, s) => .ok (result, entryHeader, w.withStore s)
  entryHashMapGet keyHeader w := CacheServer.entryHashMapGet w.system.hashmap w.memory keyHeader
  entryHashMapPut entryHeader w :=
    let (result, hashmap, memory) :=
      CacheServer.entryHashMapPut w.system.hashmap w.memory w.system.answers.hashmapOom entryHeader
    (result, ⟨memory, { w.system with hashmap }⟩)
  entryHashMapDelete keyHeader w :=
    let (hashmap, memory) := CacheServer.entryHashMapDelete w.system.hashmap w.memory keyHeader
    ⟨memory, { w.system with hashmap }⟩

/-! ### The server -/

structure Server where
  world : World System
  connections : Nat → Option Connection
  accepted : Nat
  links : Links
  list : ConnectionList
  blocked : BlockedConnections
  currentConnection : Option Nat
  lastAcceptTimestamp : Nat

def acceptPeriodMicros : Nat := 1000

-- accept(): nothing to accept or an error, a descriptor for which connection_init fails
-- (malloc or fcntl), or one for which it succeeds on a block with these bytes
inductive Accepted where
  | none
  | refused
  | opened (fileDescriptor : Nat) (header arguments : ByteArea)

structure Environment where
  answers : Answers
  accept : Accepted
  socket : Socket

/-- `cache_server_open` once the socket calls have succeeded, on the memory that malloc
gave. -/
def cacheServerOpen (hash : List UInt8 → Nat) (capacityBytes : Nat) (memory : Memory) : Server where
  world := ⟨memory, memoryQueueOpen capacityBytes, ⟨hash, []⟩, ⟨false, false, 0, 0, false⟩, [], 0⟩
  connections := fun _ => none
  accepted := 0
  links := ⟨fun _ => none, fun _ => none⟩
  list := connectionListOpen
  blocked := blockedConnectionsOpen
  currentConnection := none
  lastAcceptTimestamp := 0

namespace Server

def setConnection (s : Server) (i : Nat) (c : Option Connection) : Server :=
  { s with connections := fun j => if j = i then c else s.connections j }

def deref (s : Server) (i : Nat) : Except Fault Connection :=
  match s.connections i with
  | some c => .ok c
  | none => .error .useAfterFree

def append (s : Server) (i : Nat) : Except Fault Server := do
  let (links, list) ← connectionListAppend i s.links s.list
  .ok { s with links, list }

def remove (s : Server) (i : Nat) : Except Fault Server := do
  let (links, list) ← connectionListRemove i s.links s.list
  .ok { s with links, list }

def addBlocked (s : Server) (fuel i : Nat) (type : BlockType) : Except Fault Server := do
  let c ← s.deref i
  let (links, blocked) ← blockedConnectionsAdd s.world.system.answers.queueMallocFails fuel i
    c.entryHeader type s.links s.blocked
  .ok { s with links, blocked }

def popBlocked (s : Server) (fuel : Nat) (entryHeader : Option Pointer) (type : BlockType) :
    Except Fault (Option Nat × Server) := do
  let (connection, blocked) ← blockedConnectionsPop fuel entryHeader type s.links s.blocked
  .ok (connection, { s with blocked })

/-- A call of connection.c on connection `i`. -/
def call (s : Server) (i : Nat)
    (f : Connection → World System → Except Fault (Outcome System)) :
    Except Fault (ConnectionResult × Server) := do
  let c ← s.deref i
  let o ← f c s.world
  .ok (o.result, { s.setConnection i (some o.connection) with world := o.world })

end Server

-- connection_unblock_func_t
def unblockFunc (type : BlockType) : Connection → World System → Except Fault (Outcome System) :=
  match type with
  | .read => connectionUnblockRead serverServices
  | .write => connectionUnblockWrite serverServices

/-- `accept_connection` -/
def acceptConnection (env : Environment) (s : Server) : Except Fault Server :=
  let s := { s with lastAcceptTimestamp := env.answers.timestamp }
  match env.accept with
  | .none | .refused => .ok s
  | .opened fileDescriptor header arguments => do
    let i := s.accepted
    let s := { s.setConnection i (some (connectionInit fileDescriptor header arguments)) with
      accepted := i + 1
      links := ⟨fun j => if j = i then none else s.links.previous j,
        fun j => if j = i then none else s.links.next j⟩ }
    let s ← s.append i
    .ok (if s.currentConnection = none then { s with currentConnection := some i } else s)

/-- `get_next_connection` -/
def getNextConnection (s : Server) (current : Nat) : Option Nat :=
  match s.links.next current with
  | some next => some next
  | none => s.list.head

/-- The loop of `handle_lock_release_event` for the current connection `current`. A
connection that stays blocked is not the one that is queued again. -/
def unblockLoop (current : Nat) (type : BlockType) : Nat → Server → Except Fault Server
  | 0, _ => .error .outOfFuel
  | fuel + 1, s => do
    let c ← s.deref current
    let (unblocked, s) ← s.popBlocked (fuel + 1) c.entryHeader type
    match unblocked with
    | none => .ok s
    | some i =>
      let (result, s) ← s.call i (unblockFunc type)
      if result ≠ .success then s.addBlocked (fuel + 1) current type
      else
        let s ← s.append i
        unblockLoop current type fuel s

/-- `handle_lock_release_event` -/
def handleLockReleaseEvent (fuel current : Nat) (s : Server) : Except Fault Server := do
  let c ← s.deref current
  match c.lockReleaseEvent with
  | .none => .ok s
  | .readsUnblocked => unblockLoop current .read fuel s
  | .writesUnblocked => unblockLoop current .write fuel s
  | .blocked => .error .assertion

/-- The switch of `cache_server_proc` over the result of `connection_proc`. -/
def handleResult (fuel current : Nat) (next : Option Nat) (result : ConnectionResult) (s : Server) :
    Except Fault Server :=
  match result with
  | .success => .ok { s with currentConnection := s.list.head }
  | .noTransfer => .ok { s with currentConnection := next }
  | .newRequest => do
    let s ← s.remove current
    let s ← s.append current
    .ok { s with currentConnection := next }
  | .disconnect => do
    let s ← s.remove current
    let s := s.setConnection current none
    .ok { s with currentConnection := if next = some current then none else next }
  | .readBlocked => do
    let s ← s.remove current
    s.addBlocked fuel current .read
  | .writeBlocked => do
    let s ← s.remove current
    s.addBlocked fuel current .write

def setAnswers (w : World System) (answers : Answers) : World System :=
  { w with system := { w.system with answers } }

/-- `time_get_timestamp() - last_accept_timestamp > ACCEPT_PERIOD_MICROS` -/
def acceptDue (env : Environment) (s : Server) : Bool :=
  sub64 env.answers.timestamp s.lastAcceptTimestamp > acceptPeriodMicros

/-- `cache_server_proc` -/
def cacheServerProc (fuel : Nat) (env : Environment) (s : Server) : Except Fault Server :=
  let s := { s with world := setAnswers s.world env.answers }
  match s.currentConnection with
  | none => acceptConnection env s
  | some current =>
    if acceptDue env s then acceptConnection env s
    else do
      let next := getNextConnection s current
      let (result, s) ← s.call current (connectionProc serverServices env.socket)
      let s ← handleLockReleaseEvent fuel current s
      handleResult fuel current next result s

end CacheServer
