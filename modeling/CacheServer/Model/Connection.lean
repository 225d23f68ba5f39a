import CacheServer.Model.MemoryQueue

/-!
# Connections (cache_protocol.h, connection.h, connection.c)

A connection serves one request at a time. Request and response headers overlay
each other in `header`, as in `aggregate_header_t`; the flags of a connection
are one Bool a bit. The links `previous` and `next` of `struct connection` are
kept with the lists that use them (ConnectionList).

What connection.c calls outside itself is a record `Services` over a system
state `σ`, so that results about a connection hold whatever the allocator, the
index and malloc do. The socket calls of one `connection_proc` are answered by a
`Socket`. Each function also returns the events it causes; no function reads
them.
-/

namespace CacheServer
open EntryHeader

/-! ### The protocol (cache_protocol.h) -/

def cacheProtocolVersion : Nat := 1

-- request_type_t
inductive RequestType where
  | get | put | delete | ping
  deriving DecidableEq, Repr

def RequestType.ofByte (b : UInt8) : Option RequestType :=
  if b = 1 then some .get
  else if b = 2 then some .put
  else if b = 3 then some .delete
  else if b = 4 then some .ping
  else none

-- response_type_t
inductive ResponseType where
  | ok | value | pong | keyOversized | notFound | outOfMemory | unknownRequest
  | unsupportedVersion | valueOversized
  deriving DecidableEq, Repr

def ResponseType.toByte : ResponseType → UInt8
  | .ok => 1
  | .value => 2
  | .pong => 3
  | .keyOversized => 4
  | .notFound => 5
  | .outOfMemory => 6
  | .unknownRequest => 7
  | .unsupportedVersion => 8
  | .valueOversized => 9

def ResponseType.ofByte (b : UInt8) : Option ResponseType :=
  if b = 1 then some .ok
  else if b = 2 then some .value
  else if b = 3 then some .pong
  else if b = 4 then some .keyOversized
  else if b = 5 then some .notFound
  else if b = 6 then some .outOfMemory
  else if b = 7 then some .unknownRequest
  else if b = 8 then some .unsupportedVersion
  else if b = 9 then some .valueOversized
  else none

-- sizeof of the packed structures
def requestHeaderSize : Nat := 4
def responseHeaderSize : Nat := 1
def keyArgumentsSize : Nat := 2
def keyValueArgumentsSize : Nat := 6
def aggregateResponseHeaderSize : Nat := 5

/-! ### Sockets -/

/-- What the kernel answers to the socket call of one step. -/
structure Socket where
  incoming : List UInt8
  peerClosed : Bool
  room : Nat
  failed : Bool

/-- A call returns a count of bytes (with the bytes), -1 with EWOULDBLOCK or EAGAIN, or
-1 with another errno. A send that does not return, since SIGPIPE ends the process, is
none of these. -/
inductive SocketReturn where
  | transferred (bytes : List UInt8)
  | wouldBlock
  | failure

def Socket.recv (s : Socket) (size : Nat) : SocketReturn :=
  if s.failed then .failure
  else if size = 0 then .transferred []
  else if s.incoming = [] then (if s.peerClosed then .transferred [] else .wouldBlock)
  else .transferred (s.incoming.take size)

def Socket.send (s : Socket) (bytes : List UInt8) : SocketReturn :=
  if s.failed then .failure
  else if bytes = [] then .transferred []
  else if s.room = 0 then .wouldBlock
  else .transferred (bytes.take s.room)

/-! ### Connections (connection.h) -/

-- connection_result_t
inductive ConnectionResult where
  | success | noTransfer | newRequest | disconnect | readBlocked | writeBlocked
  deriving DecidableEq, Repr

-- connection_state_t
inductive ConnectionState where
  | receivingHeader | receivingArguments | awaitingWriteUnblock | receivingBody
  | awaitingReadUnblock | sendingHeader | sendingBody | awaitingFinish
  deriving DecidableEq, Repr

/-- Where `connection->buffer` points. -/
inductive Buffer where
  | header
  | arguments
  | memory (p : Pointer)
  deriving DecidableEq, Repr

-- connection_flag_t
structure ConnectionFlags where
  keepAlive : Bool
  allocatedBuffer : Bool
  lockAcquired : Bool
  deriving DecidableEq, Repr

structure Connection where
  buffer : Buffer
  entryHeader : Option Pointer
  remainingBytes : Nat
  bufferIndex : Nat
  fileDescriptor : Nat
  state : ConnectionState
  header : ByteArea
  arguments : ByteArea
  lockReleaseEvent : EntryHeaderLockEvent
  flags : ConnectionFlags

namespace Connection

-- the members of the unions header and arguments
def version (c : Connection) : Nat := c.header.loadLE 0 2
def requestFlags (c : Connection) : Nat := (c.header 2).toNat
def requestType (c : Connection) : Option RequestType := RequestType.ofByte (c.header 3)
def responseType (c : Connection) : Option ResponseType := ResponseType.ofByte (c.header 0)
def keySize (c : Connection) : Nat := c.arguments.loadLE 0 2
def valueSize (c : Connection) : Nat := c.arguments.loadLE 2 4

end Connection

/-- The state that connection.c shares with the rest of the program. -/
structure World (σ : Type) where
  memory : Memory
  system : σ

structure Request where
  type : RequestType
  key : List UInt8
  value : List UInt8
  deriving DecidableEq, Repr

/-- What a step of a connection lets be seen. -/
inductive Event where
  | received (bytes : List UInt8)
  | sent (bytes : List UInt8)
  | executed (request : Request)
  | lookedUp (key : List UInt8) (entry : Option Pointer)
  | allocated (entry : Pointer)
  | stored (key value : List UInt8) (entry : Pointer)
  | malloced (block : Pointer)
  | freed (block : Buffer)
  | released (entry : Pointer) (event : EntryHeaderLockEvent)
  deriving DecidableEq, Repr

structure Services (σ : Type) where
  malloc : Nat → World σ → Option Pointer × World σ
  free : Buffer → World σ → Except Fault (World σ)
  timeGetTimestamp : World σ → Nat
  entryExpiryMicros : World σ → Nat
  memoryQueueAllocate : Nat → Nat → Nat → Option Pointer → World σ →
    Except Fault (MemoryQueueResult × Option Pointer × World σ)
  entryHashMapGet : Pointer → World σ → Option Pointer
  entryHashMapPut : Pointer → World σ → Bool × World σ
  entryHashMapDelete : Pointer → World σ → World σ

structure Outcome (σ : Type) where
  result : ConnectionResult
  connection : Connection
  world : World σ
  events : List Event

def Outcome.after {σ : Type} (events : List Event) (o : Outcome σ) : Outcome σ :=
  { o with events := events ++ o.events }

/-! ### Requests (connection.c) -/

section
variable {σ : Type} (S : Services σ)

def initRequest (c : Connection) : Connection :=
  { c with
    buffer := .header
    remainingBytes := requestHeaderSize
    bufferIndex := 0
    state := .receivingHeader
    entryHeader := none
    flags := ⟨false, false, false⟩
    lockReleaseEvent := .none }

-- the members that init_request leaves alone hold what malloc left there
def connectionInit (fileDescriptor : Nat) (header arguments : ByteArea) : Connection :=
  initRequest ⟨.header, none, 0, 0, fileDescriptor, .receivingHeader, header, arguments, .none,
    ⟨false, false, false⟩⟩

def sendHeader (c : Connection) (type : ResponseType) : Connection :=
  { c with
    header := c.header.write 0 [type.toByte]
    buffer := .header
    remainingBytes := responseHeaderSize
    bufferIndex := 0
    state := .sendingHeader }

def finishRequest (c : Connection) (w : World σ) : Outcome σ :=
  if c.flags.keepAlive then ⟨.newRequest, initRequest c, w, []⟩
  else ⟨.disconnect, c, w, []⟩

def attemptMemoryRead (c : Connection) (w : World σ) : Outcome σ :=
  match c.entryHeader with
  | none => ⟨.success, sendHeader c .notFound, w, []⟩
  | some entryHeader =>
    match entryHeaderAcquireLock w.memory entryHeader with
    | (.blocked, _) => ⟨.readBlocked, { c with state := .awaitingReadUnblock }, w, []⟩
    | (_, memory) =>
      let c := sendHeader { c with flags := { c.flags with lockAcquired := true } } .value
      ⟨.success, { c with
          header := c.header.storeLE 1 4 (valueSize memory entryHeader)
          remainingBytes := aggregateResponseHeaderSize },
        { w with memory }, []⟩

def attemptMemoryWrite (c : Connection) (w : World σ) : Except Fault (Outcome σ) :=
  match S.memoryQueueAllocate c.keySize c.valueSize (S.timeGetTimestamp w + S.entryExpiryMicros w)
      c.entryHeader w with
  | .error fault => .error fault
  | .ok (.outOfMemory, entryHeader, w) =>
    .ok ⟨.success, sendHeader { c with entryHeader } .outOfMemory, w, []⟩
  | .ok (.writeBlocked, entryHeader, w) =>
    .ok ⟨.writeBlocked, { c with entryHeader, state := .awaitingWriteUnblock }, w, []⟩
  | .ok (_, none, _) => .error .nullPointer
  | .ok (_, some entryHeader, w) =>
    .ok ⟨.success, { c with
        entryHeader := some entryHeader
        remainingBytes := (c.keySize + c.valueSize) % 2 ^ 32
        bufferIndex := 0
        buffer := .memory (entryHeader.add entryHeaderSize)
        state := .receivingBody },
      w, [.allocated entryHeader]⟩

def eventReceivedHeader (c : Connection) (w : World σ) : Outcome σ :=
  if c.version ≠ cacheProtocolVersion then ⟨.success, sendHeader c .unsupportedVersion, w, []⟩
  else
    let c := if c.requestFlags % 2 = 1 then { c with flags := { c.flags with keepAlive := true } }
      else c
    match c.requestType with
    | some .ping => ⟨.success, sendHeader c .pong, w, [.executed ⟨.ping, [], []⟩]⟩
    | some .get | some .delete =>
      ⟨.success, { c with
        buffer := .arguments
        remainingBytes := keyArgumentsSize
        bufferIndex := 0
        state := .receivingArguments }, w, []⟩
    | some .put =>
      ⟨.success, { c with
        buffer := .arguments
        remainingBytes := keyValueArgumentsSize
        bufferIndex := 0
        state := .receivingArguments }, w, []⟩
    | none => ⟨.success, sendHeader c .unknownRequest, w, []⟩

def eventReceivedArguments (c : Connection) (w : World σ) : Except Fault (Outcome σ) :=
  match c.requestType with
  | some .get | some .delete =>
    match S.malloc (entryHeaderSize + c.keySize) w with
    | (none, w) => .ok ⟨.success, sendHeader { c with entryHeader := none } .outOfMemory, w, []⟩
    | (some entryHeader, w) =>
      .ok ⟨.success, { c with
          entryHeader := some entryHeader
          flags := { c.flags with allocatedBuffer := true }
          buffer := .memory (entryHeader.add entryHeaderSize)
          remainingBytes := c.keySize
          bufferIndex := 0
          state := .receivingBody },
        { w with memory := setKeySize w.memory entryHeader c.keySize }, [.malloced entryHeader]⟩
  | some .put => attemptMemoryWrite S c w
  | _ => .error .assertion

-- The key of a GET or DELETE, and key and value of a PUT, as they lie in memory.
def requestOf (type : RequestType) (c : Connection) (m : Memory) (entryHeader : Pointer) :
    Request :=
  ⟨type, m.read (entryHeader.add entryHeaderSize) c.keySize,
    if type = .put then m.read (entryHeader.add (entryHeaderSize + c.keySize)) c.valueSize else []⟩

def eventReceivedBody (c : Connection) (w : World σ) : Except Fault (Outcome σ) :=
  match c.requestType, c.entryHeader with
  | some .get, some entryHeader =>
    let headerResult := S.entryHashMapGet entryHeader w
    let request := requestOf .get c w.memory entryHeader
    match S.free (.memory entryHeader) w with
    | .error fault => .error fault
    | .ok w =>
      let c := { c with
        flags := { c.flags with allocatedBuffer := false }
        entryHeader := headerResult }
      .ok ((attemptMemoryRead c w).after
        [.executed request, .lookedUp request.key headerResult, .freed (.memory entryHeader)])
  | some .delete, some entryHeader =>
    let request := requestOf .delete c w.memory entryHeader
    match S.free (.memory entryHeader) (S.entryHashMapDelete entryHeader w) with
    | .error fault => .error fault
    | .ok w => .ok ⟨.success, sendHeader c .ok, w,
        [.executed request, .freed (.memory entryHeader)]⟩
  | some .put, some entryHeader =>
    let request := requestOf .put c w.memory entryHeader
    let (result, w) := S.entryHashMapPut entryHeader w
    if result then .ok ⟨.success, sendHeader c .outOfMemory, w, [.executed request]⟩
    else .ok ⟨.success, sendHeader c .ok, w,
      [.executed request, .stored request.key request.value entryHeader]⟩
  | some .ping, _ | none, _ => .error .assertion
  | _, none => .error .nullPointer

def eventSentHeader (c : Connection) (w : World σ) : Except Fault (Outcome σ) :=
  match c.responseType with
  | some .keyOversized | some .outOfMemory | some .unknownRequest | some .unsupportedVersion
  | some .valueOversized =>
    .ok (finishRequest { c with flags := { c.flags with keepAlive := false } } w)
  | some .notFound | some .ok | some .pong => .ok (finishRequest c w)
  | some .value =>
    match c.entryHeader with
    | none => .error .nullPointer
    | some entryHeader =>
      .ok ⟨.success, { c with
        buffer := .memory (entryHeader.add (entryHeaderSize + EntryHeader.keySize w.memory entryHeader))
        remainingBytes := EntryHeader.valueSize w.memory entryHeader
        bufferIndex := 0
        state := .sendingBody }, w, []⟩
  | none => .error .assertion

def eventSentBody (c : Connection) (w : World σ) : Except Fault (Outcome σ) :=
  match c.responseType, c.entryHeader with
  | some .value, some entryHeader =>
    let (event, memory) := entryHeaderReleaseLock w.memory entryHeader
    let c := { c with
      lockReleaseEvent := event
      flags := { c.flags with lockAcquired := false } }
    .ok ((finishRequest c { w with memory }).after [.released entryHeader event])
  | some .value, none => .error .nullPointer
  | _, _ => .error .assertion

/-! ### Transfers -/

-- recv stores its bytes at buffer + buffer_index
def storeReceived (c : Connection) (w : World σ) (bytes : List UInt8) : Connection × World σ :=
  match c.buffer with
  | .header => ({ c with header := c.header.write c.bufferIndex bytes }, w)
  | .arguments => ({ c with arguments := c.arguments.write c.bufferIndex bytes }, w)
  | .memory p => (c, { w with memory := w.memory.write (p.add c.bufferIndex) bytes })

-- the bytes that send is handed
def pendingBytes (c : Connection) (w : World σ) : List UInt8 :=
  match c.buffer with
  | .header => c.header.read c.bufferIndex c.remainingBytes
  | .arguments => c.arguments.read c.bufferIndex c.remainingBytes
  | .memory p => w.memory.read (p.add c.bufferIndex) c.remainingBytes

def socketFailure (c : Connection) (w : World σ) : Except Fault (Outcome σ) :=
  match (if c.flags.allocatedBuffer then S.free c.buffer w else .ok w) with
  | .error fault => .error fault
  | .ok w =>
    let events := if c.flags.allocatedBuffer then [.freed c.buffer] else []
    if c.flags.lockAcquired then
      match c.entryHeader with
      | none => .error .nullPointer
      | some entryHeader =>
        let (event, memory) := entryHeaderReleaseLock w.memory entryHeader
        .ok ⟨.disconnect, { c with lockReleaseEvent := event }, { w with memory },
          events ++ [.released entryHeader event]⟩
    else .ok ⟨.disconnect, c, w, events⟩

def advance (c : Connection) (n : Nat) : Connection :=
  { c with remainingBytes := c.remainingBytes - n, bufferIndex := c.bufferIndex + n }

def connectionTransfer (socket : Socket) (c : Connection) (w : World σ) :
    Except Fault (Outcome σ) :=
  match c.state with
  | .receivingHeader | .receivingArguments | .receivingBody =>
    match socket.recv c.remainingBytes with
    | .failure => socketFailure S c w
    | .wouldBlock | .transferred [] => .ok ⟨.noTransfer, c, w, []⟩
    | .transferred bytes =>
      let (c, w) := storeReceived c w bytes
      .ok ⟨.success, advance c bytes.length, w, [.received bytes]⟩
  | .sendingHeader | .sendingBody =>
    match socket.send (pendingBytes c w) with
    | .failure => socketFailure S c w
    | .wouldBlock | .transferred [] => .ok ⟨.noTransfer, c, w, []⟩
    | .transferred bytes => .ok ⟨.success, advance c bytes.length, w, [.sent bytes]⟩
  | _ => .error .assertion

/-- The switch of `connection_proc` after a completed transfer. -/
def connectionEvent (c : Connection) (w : World σ) : Except Fault (Outcome σ) :=
  match c.state with
  | .receivingHeader => .ok (eventReceivedHeader c w)
  | .receivingArguments => eventReceivedArguments S c w
  | .receivingBody => eventReceivedBody S c w
  | .sendingHeader => eventSentHeader c w
  | .sendingBody => eventSentBody c w
  | _ => .error .assertion

def connectionProc (socket : Socket) (c : Connection) (w : World σ) : Except Fault (Outcome σ) :=
  match connectionTransfer S socket c w with
  | .error fault => .error fault
  | .ok o =>
    if o.result ≠ .success then .ok o
    else if o.connection.remainingBytes ≠ 0 then .ok o
    else (connectionEvent S o.connection o.world).map (Outcome.after o.events)

def connectionUnblockRead (c : Connection) (w : World σ) : Except Fault (Outcome σ) :=
  if c.state = .awaitingReadUnblock then
    match c.entryHeader with
    | none => .error .nullPointer
    | some entryHeader =>
      if active w.memory entryHeader = 0 then
        let found := S.entryHashMapGet entryHeader w
        .ok ((attemptMemoryRead { c with entryHeader := found } w).after
          [.lookedUp (key w.memory entryHeader) found])
      else .ok (attemptMemoryRead c w)
  else .error .assertion

def connectionUnblockWrite (c : Connection) (w : World σ) : Except Fault (Outcome σ) :=
  if c.state = .awaitingWriteUnblock then attemptMemoryWrite S c w else .error .assertion

end

end CacheServer
