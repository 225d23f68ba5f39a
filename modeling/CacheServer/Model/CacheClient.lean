import CacheServer.Model.Connection

/-!
# The client (cache_protocol.py, cache_client.py)

CacheProtocol takes its structures and enums from cache_protocol.h and packs a
structure as c2py.py and `struct` do under `PACK_FORMAT`: little-endian, without
padding. How many bytes a transfer moves is up to the transport; it moves at
least one.
-/

namespace CacheServer
open ByteArea

/-! ### cache_protocol.py -/

-- the types of cache_protocol.h in TYPES_DICT
inductive PackType where
  | uint8 | uint16 | uint32
  deriving DecidableEq, Repr

def PackType.size : PackType → Nat
  | .uint8 => 1
  | .uint16 => 2
  | .uint32 => 4

-- the fields of the packed structures, in order
def requestHeader : List PackType := [.uint16, .uint8, .uint8]
def keyArguments : List PackType := [.uint16]
def keyValueArguments : List PackType := [.uint16, .uint32]
def valueArguments : List PackType := [.uint32]

/-- `structSize` -/
def structSize (format : List PackType) : Nat := (format.map PackType.size).sum

/-- What a call of the client raises: `struct.error`, `IndexError`, or its own `Exception`. -/
inductive ClientError where
  | structError
  | indexError
  | requestFailed
  deriving DecidableEq, Repr

/-- `struct.pack` on unsigned fields -/
def pack : List PackType → List Nat → Except ClientError (List UInt8)
  | [], [] => .ok []
  | type :: format, value :: values =>
    if value < 256 ^ type.size then
      (pack format values).map fun bytes => encodeLE type.size value ++ bytes
    else .error .structError
  | _, _ => .error .structError

def unpackFields : List PackType → List UInt8 → List Nat
  | [], _ => []
  | type :: format, bytes => decodeLE (bytes.take type.size) :: unpackFields format (bytes.drop type.size)

/-- `struct.unpack` -/
def unpack (format : List PackType) (bytes : List UInt8) : Except ClientError (List Nat) :=
  if bytes.length = structSize format then .ok (unpackFields format bytes) else .error .structError

-- PROTOCOL.enum('request_type', ..), counted from REQUEST_TYPE__NONE
def RequestType.value : RequestType → Nat
  | .get => 1
  | .put => 2
  | .delete => 3
  | .ping => 4

-- PROTOCOL.enum('request_flag', 'keep_alive')
def keepAliveFlag : Nat := 1

/-! ### Sockets of the client -/

structure ClientSocket where
  transport : Nat → Nat
  transfers : Nat
  sent : List UInt8
  incoming : List UInt8

namespace ClientSocket

/-- What the transport moves of `size` bytes. -/
def moved (s : ClientSocket) (size : Nat) : Nat := min size (max 1 (s.transport s.transfers))

def send (s : ClientSocket) (bytes : List UInt8) : Nat × ClientSocket :=
  (s.moved bytes.length, { s with
    transfers := s.transfers + 1
    sent := s.sent ++ bytes.take (s.moved bytes.length) })

def recv (s : ClientSocket) (size : Nat) : List UInt8 × ClientSocket :=
  (s.incoming.take (s.moved size), { s with
    transfers := s.transfers + 1
    incoming := s.incoming.drop (s.moved size) })

end ClientSocket

/-! ### cache_client.py -/

namespace CacheClient

def header (type : RequestType) : Except ClientError (List UInt8) :=
  pack requestHeader [cacheProtocolVersion, keepAliveFlag, type.value]

def keyRequest (type : RequestType) (key : List UInt8) : Except ClientError (List UInt8) := do
  let requestHeader ← header type
  let arguments ← pack keyArguments [key.length]
  .ok (requestHeader ++ arguments ++ key)

def putRequest (key value : List UInt8) : Except ClientError (List UInt8) := do
  let requestHeader ← header .put
  let arguments ← pack keyValueArguments [key.length, value.length]
  .ok (requestHeader ++ arguments ++ key ++ value)

/-- The request goes into one call of `send`, whose result is not looked at. -/
def exchange {α : Type} (request : Except ClientError (List UInt8))
    (receive : ClientSocket → Except ClientError α × ClientSocket) (s : ClientSocket) :
    Except ClientError α × ClientSocket :=
  match request with
  | .error error => (.error error, s)
  | .ok bytes => receive (s.send bytes).2

def receiveResponse (type : ResponseType) (s : ClientSocket) : Except ClientError Unit × ClientSocket :=
  match s.recv 1 with
  | ([], s) => (.error .indexError, s)
  | (responseHeader :: _, s) =>
    if responseHeader ≠ type.toByte then (.error .requestFailed, s) else (.ok (), s)

/-- The value of a GET, or `none` for `None`. -/
def receiveValue (s : ClientSocket) : Except ClientError (Option (List UInt8)) × ClientSocket :=
  match s.recv 1 with
  | ([], s) => (.error .indexError, s)
  | (responseHeader :: _, s) =>
    if responseHeader = ResponseType.notFound.toByte then (.ok none, s)
    else if responseHeader ≠ ResponseType.value.toByte then (.error .requestFailed, s)
    else
      let (arguments, s) := s.recv (structSize valueArguments)
      match unpack valueArguments arguments with
      | .ok (valueSize :: _) =>
        let (value, s) := s.recv valueSize
        (.ok (some value), s)
      | .ok [] => (.error .indexError, s)
      | .error error => (.error error, s)

def ping (s : ClientSocket) : Except ClientError Unit × ClientSocket :=
  exchange (header .ping) (receiveResponse .pong) s

def put (key value : List UInt8) (s : ClientSocket) : Except ClientError Unit × ClientSocket :=
  exchange (putRequest key value) (receiveResponse .ok) s

def get (key : List UInt8) (s : ClientSocket) :
    Except ClientError (Option (List UInt8)) × ClientSocket :=
  exchange (keyRequest .get key) receiveValue s

def delete (key : List UInt8) (s : ClientSocket) : Except ClientError Unit × ClientSocket :=
  exchange (keyRequest .delete key) (receiveResponse .ok) s

end CacheClient

end CacheServer
