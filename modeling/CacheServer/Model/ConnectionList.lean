import CacheServer.Model.EntryHeader

/-!
# The list of active connections (connection_list.c)

Connections are numbered in the order in which they were accepted; a number
stands for the pointer. The members `previous` and `next` of all connections are
two functions (`Links`). Following a null pointer ends the run.
-/

namespace CacheServer

structure Links where
  previous : Nat → Option Nat
  next : Nat → Option Nat

namespace Links

def setPrevious (l : Links) (connection : Option Nat) (p : Option Nat) : Except Fault Links :=
  match connection with
  | none => .error .nullPointer
  | some c => .ok { l with previous := fun i => if i = c then p else l.previous i }

def setNext (l : Links) (connection : Option Nat) (n : Option Nat) : Except Fault Links :=
  match connection with
  | none => .error .nullPointer
  | some c => .ok { l with next := fun i => if i = c then n else l.next i }

end Links

structure ConnectionList where
  head : Option Nat
  tail : Option Nat
  count : Nat
  deriving DecidableEq, Repr

def connectionListOpen : ConnectionList := ⟨none, none, 0⟩

def connectionListAppend (connection : Nat) (l : Links) (list : ConnectionList) :
    Except Fault (Links × ConnectionList) :=
  let count := (list.count + 1) % 2 ^ 16
  match list.head with
  | none => .ok (l, ⟨some connection, some connection, count⟩)
  | some head => do
    let l ← l.setPrevious (some connection) list.tail
    let l ← l.setNext (some connection) none
    let l ← l.setNext list.tail (some connection)
    .ok (l, ⟨some head, some connection, count⟩)

-- the first half of connection_list_remove: tail, or the successor's previous
def unlinkPrevious (connection : Nat) (l : Links) (list : ConnectionList) :
    Except Fault (Links × ConnectionList) :=
  if list.tail = some connection then
    if l.next connection = none then .ok (l, { list with tail := l.previous connection })
    else .error .assertion
  else do
    let l ← l.setPrevious (l.next connection) (l.previous connection)
    .ok (l, list)

-- the second half: head, or the predecessor's next
def unlinkNext (connection : Nat) (l : Links) (list : ConnectionList) :
    Except Fault (Links × ConnectionList) :=
  if list.head = some connection then
    if l.previous connection = none then .ok (l, { list with head := l.next connection })
    else .error .assertion
  else do
    let l ← l.setNext (l.previous connection) (l.next connection)
    .ok (l, list)

def connectionListRemove (connection : Nat) (l : Links) (list : ConnectionList) :
    Except Fault (Links × ConnectionList) := do
  let (l, list) ← unlinkPrevious connection l
    { list with count := (list.count + (2 ^ 16 - 1)) % 2 ^ 16 }
  unlinkNext connection l list

end CacheServer
