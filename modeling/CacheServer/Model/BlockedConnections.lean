import CacheServer.Model.ConnectionList

/-!
# Queues of blocked connections (blocked_connections.c)

The queues form a chain of malloc'd nodes, numbered in the order of their
creation; a freed node is no longer in `lists`, and following a pointer to it
ends the run. The connections of a queue are linked by `Links.next`. The loops
over the chain take their number of rounds as fuel.
-/

namespace CacheServer

-- block_type_t
inductive BlockType where
  | read | write
  deriving DecidableEq, Repr

structure BlockedConnectionList where
  next : Option Nat
  head : Option Nat
  tail : Option Nat
  entryHeader : Option Pointer
  size : Nat
  type : BlockType
  deriving DecidableEq, Repr

structure BlockedConnections where
  head : Option Nat
  lists : Nat → Option BlockedConnectionList
  created : Nat

-- The program never calls blocked_connections_open: the static context starts as zero.
def blockedConnectionsOpen : BlockedConnections := ⟨none, fun _ => none, 0⟩

namespace BlockedConnections

def deref (b : BlockedConnections) (list : Nat) : Except Fault BlockedConnectionList :=
  match b.lists list with
  | some node => .ok node
  | none => .error .useAfterFree

def update (b : BlockedConnections) (list : Nat) (node : Option BlockedConnectionList) :
    BlockedConnections :=
  { b with lists := fun i => if i = list then node else b.lists i }

end BlockedConnections

def blockedConnectionListInit (mallocFails : Bool) (connection : Nat) (entryHeader : Option Pointer)
    (type : BlockType) (l : Links) : Except Fault (Links × Option BlockedConnectionList) :=
  if mallocFails then .ok (l, none)
  else do
    let l ← l.setPrevious (some connection) none
    let l ← l.setNext (some connection) none
    .ok (l, some ⟨none, some connection, some connection, entryHeader, 1, type⟩)

def blockedConnectionListAppend (node : BlockedConnectionList) (connection : Nat) (l : Links) :
    Except Fault (Links × BlockedConnectionList) := do
  let l ← l.setNext (some connection) none
  let l ← l.setPrevious (some connection) none
  let l ← l.setNext node.tail (some connection)
  .ok (l, { node with tail := some connection, size := (node.size + 1) % 2 ^ 32 })

def blockedConnectionListPop (node : BlockedConnectionList) (l : Links) :
    Except Fault (Option Nat × BlockedConnectionList) :=
  if node.size > 0 then
    match node.head with
    | none => .error .nullPointer
    | some connection =>
      .ok (some connection, { node with head := l.next connection, size := node.size - 1 })
  else .error .assertion

/-- The loop of `blocked_connections_add`. Its body never assigns `list`. -/
def blockedConnectionsAddLoop (connection : Nat) (entryHeader : Option Pointer) (type : BlockType)
    (list : Option Nat) :
    Nat → Links × BlockedConnections → Except Fault (Links × BlockedConnections)
  | 0, _ => .error .outOfFuel
  | fuel + 1, (l, b) =>
    match list with
    | none => .ok (l, b)
    | some i => do
      let node ← b.deref i
      if node.type = type ∧ node.entryHeader = entryHeader then
        let (l, node) ← blockedConnectionListAppend node connection l
        blockedConnectionsAddLoop connection entryHeader type list fuel (l, b.update i (some node))
      else blockedConnectionsAddLoop connection entryHeader type list fuel (l, b)

-- entryHeader is connection_get_entry_header(connection); what malloc gave for the node is
-- followed without a check
def blockedConnectionsAdd (mallocFails : Bool) (fuel connection : Nat) (entryHeader : Option Pointer)
    (type : BlockType) (l : Links) (b : BlockedConnections) :
    Except Fault (Links × BlockedConnections) := do
  let (l, b) ← blockedConnectionsAddLoop connection entryHeader type b.head fuel (l, b)
  let (l, node) ← blockedConnectionListInit mallocFails connection entryHeader type l
  match node with
  | none => .error .nullPointer
  | some node => .ok (l, { b.update b.created (some { node with next := b.head }) with
    head := some b.created
    created := b.created + 1 })

/-- The loop of `blocked_connections_pop`. An emptied node that is not the first of the
chain is freed without being unlinked: the source assigns its local `previous_list`. -/
def blockedConnectionsPopLoop (entryHeader : Option Pointer) (type : BlockType) (l : Links)
    (b : BlockedConnections) :
    Nat → Option Nat → Option Nat → Except Fault (Option Nat × BlockedConnections)
  | 0, _, _ => .error .outOfFuel
  | fuel + 1, previousList, list =>
    match list with
    | none => .ok (none, b)
    | some i => do
      let node ← b.deref i
      if node.type = type ∧ node.entryHeader = entryHeader then
        let (connection, node) ← blockedConnectionListPop node l
        if node.size = 0 then
          let head := if previousList = none then node.next else b.head
          .ok (connection, { b.update i none with head := head })
        else .ok (connection, b.update i (some node))
      else blockedConnectionsPopLoop entryHeader type l b fuel (some i) node.next

def blockedConnectionsPop (fuel : Nat) (entryHeader : Option Pointer) (type : BlockType)
    (l : Links) (b : BlockedConnections) : Except Fault (Option Nat × BlockedConnections) :=
  blockedConnectionsPopLoop entryHeader type l b fuel none b.head

end CacheServer
