import Mathlib.Data.Finset.Card
import CacheServer.Sharing.Regions

/-!
# Connections in any order

Any number of connections call connection.c on one world, one call after the
other and in any order; `Connections.step` is one call, a new connection, or an
answer of the clock, of malloc or of the index. `Owned` is what the calls keep
where the index leads to complete entries and no allocation evicts a region
that is being filled.
-/

namespace CacheServer
open EntryHeader

/-! ### Calls -/

inductive ConnectionCall where
  | proc (socket : Socket)
  | unblockRead
  | unblockWrite

namespace ConnectionCall

def run : ConnectionCall → Connection → World System → Except Fault (Outcome System)
  | .proc socket => connectionProc serverServices socket
  | .unblockRead => connectionUnblockRead serverServices
  | .unblockWrite => connectionUnblockWrite serverServices

/-- Where the call comes to the switch of `connection_proc`, or to the retry: the connection and the
world after the transfer. -/
def reached (call : ConnectionCall) (c : Connection) (w : World System) :
    Option (Connection × World System) :=
  match call with
  | .proc socket =>
    match connectionTransfer serverServices socket c w with
    | .ok ⟨.success, c', w', _⟩ => if c'.remainingBytes = 0 then some (c', w') else none
    | _ => none
  | .unblockRead | .unblockWrite => some (c, w)

def Careful (call : ConnectionCall) (c : Connection) (w : World System) (F : Slot → Prop) : Prop :=
  ∀ r ∈ call.reached c w, r.1.Careful r.2 F

instance (call : ConnectionCall) (c : Connection) (w : World System) (F : Slot → Prop)
    [DecidablePred F] : Decidable (call.Careful c w F) :=
  inferInstanceAs (Decidable (∀ r ∈ call.reached c w, r.1.Careful r.2 F))

def Evicts (call : ConnectionCall) (c : Connection) (w : World System) (e : Slot) : Prop :=
  ∃ r ∈ call.reached c w, r.1.Evicts r.2 e

end ConnectionCall

section
variable {call : ConnectionCall} {c c' : Connection} {w w' : World System} {o : Outcome System}
  {es : List Slot} {H : Pointer → Nat} {F : Slot → Prop} {e : Slot}

/-- The ways in which a call returns. -/
inductive ConnectionCall.Returns (c : Connection) (w : World System) :
    ConnectionCall → Outcome System → Prop
  | transferred {o : Outcome System} (socket : Socket)
      (transfer : connectionTransfer serverServices socket c w = .ok o) : Returns c w (.proc socket) o
  | completed {o₁ o₂ : Outcome System} (socket : Socket)
      (transfer : connectionTransfer serverServices socket c w = .ok o₁)
      (success : o₁.result = .success) (complete : o₁.connection.remainingBytes = 0)
      (event : connectionEvent serverServices o₁.connection o₁.world = .ok o₂) :
      Returns c w (.proc socket) (o₂.after o₁.events)
  | retriedRead {o : Outcome System} (retry : connectionUnblockRead serverServices c w = .ok o) :
      Returns c w .unblockRead o
  | retriedWrite {o : Outcome System} (retry : connectionUnblockWrite serverServices c w = .ok o) :
      Returns c w .unblockWrite o

theorem ConnectionCall.returns (h : call.run c w = .ok o) : Returns c w call o := by
  cases call with
  | unblockRead => exact .retriedRead h
  | unblockWrite => exact .retriedWrite h
  | proc socket =>
    have hreturns : Proc.Returns serverServices socket c w o := connectionProc_returns h
    cases hreturns with
    | unsuccessful transfer | incomplete transfer => exact .transferred socket transfer
    | completed transfer success complete event =>
      exact .completed socket transfer success complete event

theorem ConnectionCall.reached_of_transfer {socket : Socket} {o₁ : Outcome System}
    (transfer : connectionTransfer serverServices socket c w = .ok o₁)
    (success : o₁.result = .success) (complete : o₁.connection.remainingBytes = 0) :
    (ConnectionCall.proc socket).reached c w = some (o₁.connection, o₁.world) := by
  obtain ⟨result, c₁, w₁, events⟩ := o₁
  cases success
  simp only [ConnectionCall.reached, transfer]
  exact if_pos complete

/-- A call only transfers, or does so and goes on to its switch. -/
theorem ConnectionCall.run_effect (hc : c.Valid) (hp : c.Placed) (h : call.run c w = .ok o) :
    (Transferred c w o ∧ (o.result ≠ .disconnect → o.connection.Placed)) ∨
      ∃ o₁ o₂ : Outcome System, Transferred c w o₁ ∧ o₁.result = .success ∧
        call.reached c w = some (o₁.connection, o₁.world) ∧ Effect o₁.connection o₁.world o₂ ∧
        o = o₂.after o₁.events ∧ (o.result ≠ .disconnect → o.connection.Placed) := by
  have hquiet : Transferred c w ⟨.success, c, w, []⟩ :=
    .quiet rfl rfl rfl rfl (Or.inl rfl) ⟨rfl, rfl⟩ (fun _ => Or.inr ⟨rfl, rfl⟩) (.of_memory rfl le_rfl)
  have hreturns := call.returns h
  cases hreturns with
  | transferred socket transfer =>
    exact Or.inl ⟨connectionTransfer_effect hc hp transfer, connectionTransfer_placed hc hp transfer⟩
  | @completed o₁ o₂ socket transfer success complete event =>
    have hopen : o₁.result ≠ .disconnect := by rw [success]; decide
    have hvalid := connectionTransfer_valid hc transfer hopen
    have hplaced := connectionTransfer_placed hc hp transfer hopen
    have hlast : o₂.connection.Placed := connectionEvent_placed hvalid event
    exact Or.inr ⟨o₁, o₂, connectionTransfer_effect hc hp transfer, success,
      reached_of_transfer transfer success complete, connectionEvent_effect hvalid hplaced complete event,
      rfl, fun _ => hlast⟩
  | retriedRead retry =>
    exact Or.inr ⟨⟨.success, c, w, []⟩, o, hquiet, rfl, rfl, connectionUnblockRead_effect hc retry, rfl,
      fun _ => placed_of_state (connectionUnblockRead_state retry)⟩
  | retriedWrite retry =>
    exact Or.inr ⟨⟨.success, c, w, []⟩, o, hquiet, rfl, rfl, connectionUnblockWrite_effect hc retry, rfl,
      fun _ => connectionUnblockWrite_placed hc retry⟩

theorem ConnectionCall.reached_proc {socket : Socket}
    (h : (ConnectionCall.proc socket).reached c w = some (c', w')) :
    ∃ events, connectionTransfer serverServices socket c w = .ok ⟨.success, c', w', events⟩ := by
  simp only [ConnectionCall.reached] at h
  split at h
  · rename_i events ht
    split at h <;> cases h
    exact ⟨events, ht⟩
  · cases h

theorem ConnectionCall.reached_run {socket : Socket}
    (h : (ConnectionCall.proc socket).reached c w = some (c', w'))
    (hrun : (ConnectionCall.proc socket).run c w = .ok o) : ∃ events o₂,
      connectionTransfer serverServices socket c w = .ok ⟨.success, c', w', events⟩ ∧
      c'.remainingBytes = 0 ∧ connectionEvent serverServices c' w' = .ok o₂ ∧ o = o₂.after events := by
  simp only [ConnectionCall.reached] at h
  split at h
  · rename_i events ht
    split at h <;> cases h
    rename_i complete
    have hreturns : Proc.Returns serverServices socket c w o := connectionProc_returns hrun
    cases hreturns with
    | unsuccessful transfer other =>
      cases ht.symm.trans transfer
      exact absurd rfl other
    | incomplete transfer success more =>
      cases ht.symm.trans transfer
      exact absurd complete more
    | @completed o₁ o₂ transfer success _ event =>
      cases ht.symm.trans transfer
      exact ⟨events, o₂, ht, complete, event, rfl⟩
  · cases h

theorem ConnectionCall.reached_kept (h : call.reached c w = some (c', w')) :
    c'.state = c.state ∧ c'.entryHeader = c.entryHeader := by
  cases call with
  | unblockRead | unblockWrite =>
    cases h
    exact ⟨rfl, rfl⟩
  | proc socket =>
    obtain ⟨events, ht⟩ := reached_proc h
    exact connectionTransfer_kept ht (by simp)

theorem ConnectionCall.reached_state (h : call.reached c w = some (c', w')) : c'.state = c.state :=
  (reached_kept h).1

theorem ConnectionCall.reached_base (h : call.reached c w = some (c', w')) (hc : c.Valid)
    (hp : c.Placed) (hb : Base w es H F c.lock c.region) : Base w' es H F c'.lock c'.region := by
  cases call with
  | unblockRead | unblockWrite =>
    cases h
    exact hb
  | proc socket =>
    obtain ⟨events, ht⟩ := reached_proc h
    exact ((connectionTransfer_effect hc hp ht).base hb).1

theorem Connection.Valid.free_of_allocates (hc : c.Valid)
    (h : c.state = .receivingArguments ∨ c.state = .awaitingWriteUnblock) :
    c.lock = none ∧ c.region = none := by
  refine ⟨lock_eq_none ?_, region_eq_none_of_state fun hs => ?_⟩
  swap
  · rcases h with h | h <;> cases h.symm.trans hs
  by_contra hl
  have hl : c.flags.lockAcquired = true := by simpa using hl
  obtain ⟨hphase, -⟩ := hc
  cases hphase with
  | receivingArguments state buffer type payload window entry unallocated unlocked
  | awaitingWriteUnblock state type unallocated unlocked =>
    rw [unlocked] at hl
    cases hl
  | receivingHeader state | receivingBody state | awaitingReadUnblock state | sendingHeader state
  | sendingValue state | sendingBody state => rcases h with h | h <;> cases h.symm.trans state

theorem ConnectionCall.Evicts.free (h : call.Evicts c w e) (hc : c.Valid) :
    c.lock = none ∧ c.region = none := by
  obtain ⟨⟨c', w'⟩, hreach, hallocates, -⟩ := h
  have hstate := hallocates.1
  rw [reached_state hreach] at hstate
  exact hc.free_of_allocates hstate

/-- What is locked or being filled is not evicted. -/
theorem ConnectionCall.not_evicts (hc : c.Valid) (hp : c.Placed) (careful : call.Careful c w F)
    (hb : Base w es H F c.lock c.region) (he : e ∈ es)
    (hguarded : (0 < H e.pointer ∨ c.lock = some e.pointer) ∨ F e ∨ c.region = some e) :
    ¬ call.Evicts c w e := by
  intro hevicts
  obtain ⟨hlock, hregion⟩ := hevicts.free hc
  obtain ⟨⟨c', w'⟩, hreach, hallocates, hvictim⟩ := hevicts
  rcases hguarded with (hH | hl) | hF | hr
  · have hcount := (reached_base hreach hc hp hb).locks e he
    have hzero : locks w'.memory e.pointer = 0 := locks_of_mem_victims hvictim
    omega
  · cases hlock.symm.trans hl
  · exact (careful _ hreach).evicts e ⟨hallocates, hvictim⟩ hF
  · cases hregion.symm.trans hr

theorem ConnectionCall.base (hc : c.Valid) (hp : c.Placed) (careful : call.Careful c w F)
    (hb : Base w es H F c.lock c.region) (h : call.run c w = .ok o) :
    ∃ es', Base o.world es' H F o.lock o.region ∧ ∀ e ∈ es, ¬ call.Evicts c w e →
      e ∈ es' ∧ (c.region ≠ some e → Spares e w o) := by
  rcases call.run_effect hc hp h with ⟨ht, -⟩ | ⟨o₁, o₂, ht, hresult, hreach, he, rfl, -⟩
  · obtain ⟨hbase, hsame⟩ := ht.base hb
    exact ⟨es, hbase, fun e he _ => ⟨he, ht.spares hb he⟩⟩
  · obtain ⟨hbase, -⟩ := ht.base hb
    have hopen : o₁.result ≠ .disconnect := by rw [hresult]; decide
    rw [o₁.lock_eq hopen, o₁.region_eq hopen] at hbase
    obtain ⟨es', hbase', hkeeps⟩ := he.base (careful _ hreach) hbase
    refine ⟨es', hbase', fun e hmem hevicts => ?_⟩
    obtain ⟨hmem', hspares⟩ := hkeeps e hmem fun h => hevicts ⟨_, hreach, h⟩
    refine ⟨hmem', fun hne => ?_⟩
    have hspared := ht.spares hb hmem hne
    exact hspared.trans (hspares ((o₁.region_eq hopen).symm ▸ hspared.region))

/-- The call of a connection that fills a region changes no other entry. -/
theorem ConnectionCall.fills (hc : c.Valid) (hp : c.Placed) (careful : call.Careful c w F)
    (hb : Base w es H F c.lock c.region) (h : call.run c w = .ok o) (hr : c.region = some e) :
    (∀ x ∈ es, x ≠ e → ∀ a, x.offset ≤ a → a < x.stop →
      o.world.memory .ring a = w.memory .ring a) ∧
    (o.region = some e ∨ o.result = .disconnect ∨ o.connection.state = .sendingHeader) := by
  rcases call.run_effect hc hp h with ⟨ht, -⟩ | ⟨o₁, o₂, ht, hresult, hreach, he, rfl, -⟩
  · obtain ⟨hbytes, hend⟩ := ht.fills hb hr
    exact ⟨hbytes, hend.imp_right Or.inl⟩
  · obtain ⟨hbytes, hend⟩ := ht.fills hb hr
    obtain ⟨hbase, -⟩ := ht.base hb
    have hopen : o₁.result ≠ .disconnect := by rw [hresult]; decide
    rw [o₁.lock_eq hopen, o₁.region_eq hopen] at hbase
    have hregion : o₁.connection.region = some e :=
      (o₁.region_eq hopen).symm.trans (hend.resolve_right hopen)
    obtain ⟨hbytes', hend'⟩ := he.fills (careful _ hreach) hbase hregion
    exact ⟨fun x hx hne a h1 h2 => (hbytes' x hx hne a h1 h2).trans (hbytes x hx hne a h1 h2), hend'⟩

theorem ConnectionCall.run_valid (hc : c.Valid) (h : call.run c w = .ok o) : o.Valid := by
  cases call with
  | proc socket => exact connectionProc_valid hc h
  | unblockRead => exact connectionUnblockRead_valid hc h
  | unblockWrite => exact connectionUnblockWrite_valid hc h

theorem ConnectionCall.run_placed (hc : c.Valid) (hp : c.Placed) (h : call.run c w = .ok o)
    (hopen : o.result ≠ .disconnect) : o.connection.Placed := by
  rcases call.run_effect hc hp h with ⟨-, hplaced⟩ | ⟨o₁, o₂, -, -, -, -, -, hplaced⟩
  · exact hplaced hopen
  · exact hplaced hopen

end

/-! ### The connections -/

structure Connections where
  world : World System
  get : Nat → Option Connection
  accepted : Nat
  history : List (Nat × Event)

inductive Action where
  | accept (fileDescriptor : Nat) (header arguments : ByteArea)
  | answer (answers : Answers)
  | call (i : Nat) (call : ConnectionCall)

def connectionsOpen (hash : List UInt8 → Nat) (capacityBytes : Nat) (memory : Memory) : Connections :=
  ⟨(cacheServerOpen hash capacityBytes memory).world, fun _ => none, 0, []⟩

namespace Connections

/-- A connection that is to be closed is closed at once. -/
def after (s : Connections) (i : Nat) (o : Outcome System) : Connections where
  world := o.world
  get j := if j = i then (if o.result = .disconnect then none else some o.connection) else s.get j
  accepted := s.accepted
  history := s.history ++ o.events.map fun event => (i, event)

def accept (s : Connections) (c : Connection) : Connections :=
  { s with
    get := fun j => if j = s.accepted then some c else s.get j
    accepted := s.accepted + 1 }

def step (s : Connections) : Action → Except Fault Connections
  | .accept fileDescriptor header arguments =>
    .ok (s.accept (connectionInit fileDescriptor header arguments))
  | .answer answers => .ok { s with world := setAnswers s.world answers }
  | .call i call =>
    match s.get i with
    | none => .error .useAfterFree
    | some c =>
      match call.run c s.world with
      | .error fault => .error fault
      | .ok o => .ok (s.after i o)

def lock (s : Connections) (i : Nat) : Option Pointer := (s.get i).bind Connection.lock

def region (s : Connections) (i : Nat) : Option Slot := (s.get i).bind Connection.region

/-- The number of connections that have locked an entry. -/
def holders (s : Connections) (p : Pointer) : Nat :=
  ((Finset.range s.accepted).filter fun i => s.lock i = some p).card

def heldElsewhere (s : Connections) (i : Nat) (p : Pointer) : Nat :=
  (((Finset.range s.accepted).erase i).filter fun j => s.lock j = some p).card

def FilledElsewhere (s : Connections) (i : Nat) (e : Slot) : Prop :=
  ∃ j < s.accepted, j ≠ i ∧ s.region j = some e

instance (s : Connections) (i : Nat) : DecidablePred (s.FilledElsewhere i) := fun e =>
  inferInstanceAs (Decidable (∃ j < s.accepted, j ≠ i ∧ s.region j = some e))

/-- The calls that a run may make: see `Connection.Careful`. -/
def Careful (s : Connections) : Action → Prop
  | .accept .. | .answer _ => True
  | .call i call => ∀ c ∈ s.get i, call.Careful c s.world (s.FilledElsewhere i)

instance (s : Connections) : (a : Action) → Decidable (s.Careful a)
  | .accept .. | .answer _ => inferInstanceAs (Decidable True)
  | .call i call =>
    inferInstanceAs (Decidable (∀ c ∈ s.get i, call.Careful c s.world (s.FilledElsewhere i)))

/-- The entry is evicted by the step. -/
def Evicts (s : Connections) : Action → Slot → Prop
  | .accept .., _ | .answer _, _ => False
  | .call i call, e => ∃ c, s.get i = some c ∧ call.Evicts c s.world e

structure Owned (s : Connections) (es : List Slot) : Prop where
  fresh : ∀ i, s.accepted ≤ i → s.get i = none
  connection : ∀ i c, s.get i = some c → c.Valid ∧ c.Placed
  distinct : ∀ i j e, s.region i = some e → s.region j = some e → i = j
  base : ∀ i, Base s.world es (s.heldElsewhere i) (s.FilledElsewhere i) (s.lock i) (s.region i)

section
variable {s s' : Connections} {es : List Slot} {i : Nat} {p : Pointer} {o : Outcome System}

theorem lock_fresh (hfresh : ∀ i, s.accepted ≤ i → s.get i = none) (hi : s.accepted ≤ i) :
    s.lock i = none := by
  rw [lock, hfresh i hi]
  rfl

theorem lt_of_region {e : Slot} (hfresh : ∀ i, s.accepted ≤ i → s.get i = none)
    (h : s.region i = some e) : i < s.accepted := by
  by_contra hlt
  rw [region, hfresh i (by omega)] at h
  cases h

theorem holders_eq (hfresh : ∀ i, s.accepted ≤ i → s.get i = none) (i : Nat) (p : Pointer) :
    s.holders p = s.heldElsewhere i p + if s.lock i = some p then 1 else 0 := by
  unfold holders heldElsewhere
  by_cases hi : i < s.accepted
  · have hmem : i ∈ Finset.range s.accepted := Finset.mem_range.mpr hi
    rw [← Finset.insert_erase hmem, Finset.filter_insert, Finset.erase_insert_eq_erase,
      Finset.erase_idem]
    split
    · rw [Finset.card_insert_of_notMem (by simp)]
    · rfl
  · rw [lock_fresh hfresh (by omega), if_neg (by simp), Finset.erase_eq_of_notMem (by simp; omega)]
    rfl

theorem holders_pos (hfresh : ∀ i, s.accepted ≤ i → s.get i = none) :
    0 < s.holders p ↔ ∃ i, s.lock i = some p := by
  unfold holders
  rw [Finset.card_pos]
  constructor
  · rintro ⟨i, hi⟩
    exact ⟨i, (Finset.mem_filter.mp hi).2⟩
  · rintro ⟨i, hi⟩
    refine ⟨i, Finset.mem_filter.mpr ⟨Finset.mem_range.mpr ?_, hi⟩⟩
    by_contra hlt
    rw [lock_fresh hfresh (by omega)] at hi
    cases hi

/- What `Base` says is the same from the side of each connection. -/
theorem Owned.of_base (fresh : ∀ i, s.accepted ≤ i → s.get i = none)
    (connection : ∀ i c, s.get i = some c → c.Valid ∧ c.Placed)
    (distinct : ∀ i j e, s.region i = some e → s.region j = some e → i = j)
    (h : Base s.world es (s.heldElsewhere i) (s.FilledElsewhere i) (s.lock i) (s.region i)) :
    s.Owned es := by
  have hregion : ∀ j e, s.region j = some e → e ∈ es := by
    intro j e hj
    by_cases hji : j = i
    · subst hji
      exact (h.fills e hj).1
    · exact h.filled e ⟨j, lt_of_region fresh hj, hji, hj⟩
  refine ⟨fresh, connection, distinct, fun j => ⟨h.ring, h.inactive, fun e he => ?_, fun p hp => ?_,
    fun e he => ?_, fun e he => ?_⟩⟩
  · rw [h.locks e he, ← holders_eq fresh i, ← holders_eq fresh j]
  · have hpos : 0 < s.heldElsewhere i p ∨ s.lock i = some p := by
      by_contra hnone
      push Not at hnone
      have h₁ := holders_eq fresh i p
      have h₂ := holders_eq fresh j p
      rw [if_neg hnone.2] at h₁
      rcases hp with hp | hp
      · omega
      · rw [if_pos hp] at h₂
        omega
    obtain ⟨e, he, hep, hF, hr⟩ := h.held p hpos
    have hnobody : ∀ k, s.region k ≠ some e := by
      intro k hk
      by_cases hki : k = i
      · subst hki
        exact hr hk
      · exact hF ⟨k, lt_of_region fresh hk, hki, hk⟩
    exact ⟨e, he, hep, fun ⟨k, _, _, hk⟩ => hnobody k hk, hnobody j⟩
  · obtain ⟨k, -, -, hk⟩ := he
    exact hregion k e hk
  · exact ⟨hregion j e he, fun ⟨k, _, hkj, hk⟩ => hkj (distinct k j e hk he)⟩

/-! ### Steps -/

/-- The region that the connection of an action is filling. -/
def filledBy (s : Connections) : Action → Option Slot
  | .accept .. | .answer _ => none
  | .call i _ => s.region i

theorem after_lock_self : (s.after i o).lock i = o.lock := by
  unfold lock after Outcome.lock
  simp only [if_pos]
  split <;> rfl

theorem after_region_self : (s.after i o).region i = o.region := by
  unfold region after Outcome.region
  simp only [if_pos]
  split <;> rfl

theorem after_get {j : Nat} (hj : j ≠ i) : (s.after i o).get j = s.get j := if_neg hj

theorem after_get_self {c : Connection} (h : (s.after i o).get i = some c) :
    o.result ≠ .disconnect ∧ c = o.connection := by
  have hget : (if o.result = .disconnect then none else some o.connection) = some c :=
    (if_pos rfl).symm.trans h
  split at hget
  · cases hget
  · rename_i hopen
    exact ⟨hopen, (Option.some.inj hget).symm⟩

theorem after_lock {j : Nat} (hj : j ≠ i) : (s.after i o).lock j = s.lock j :=
  congrArg (Option.bind · Connection.lock) (after_get hj)

theorem after_region {j : Nat} (hj : j ≠ i) : (s.after i o).region j = s.region j :=
  congrArg (Option.bind · Connection.region) (after_get hj)

theorem after_heldElsewhere : (s.after i o).heldElsewhere i = s.heldElsewhere i := by
  funext p
  refine congrArg Finset.card (Finset.filter_congr fun j hj => ?_)
  rw [after_lock (Finset.ne_of_mem_erase hj)]

theorem after_filledElsewhere : (s.after i o).FilledElsewhere i = s.FilledElsewhere i := by
  funext e
  refine propext (exists_congr fun j => and_congr_right fun _ => and_congr_right fun hj => ?_)
  rw [after_region hj]

theorem lock_eq {c : Connection} (h : s.get i = some c) : s.lock i = c.lock := by
  rw [lock, h]
  rfl

theorem region_eq {c : Connection} (h : s.get i = some c) : s.region i = c.region := by
  rw [region, h]
  rfl

theorem Owned.call {c : Connection} {call : ConnectionCall} (h : s.Owned es) (hc : s.get i = some c)
    (careful : call.Careful c s.world (s.FilledElsewhere i)) (hrun : call.run c s.world = .ok o) :
    ∃ es', (s.after i o).Owned es' ∧ ∀ e ∈ es, ¬ call.Evicts c s.world e →
      e ∈ es' ∧ (s.region i ≠ some e → Spares e s.world o) := by
  obtain ⟨hvalid, hplaced⟩ := h.connection i c hc
  have hbase := h.base i
  rw [lock_eq hc, region_eq hc] at hbase
  obtain ⟨es', hbase', hkeeps⟩ := call.base hvalid hplaced careful hbase hrun
  rw [region_eq hc]
  refine ⟨es', ?_, hkeeps⟩
  rw [← after_heldElsewhere (s := s) (o := o), ← after_filledElsewhere (s := s) (o := o),
    ← after_lock_self (s := s) (i := i), ← after_region_self (s := s) (i := i)] at hbase'
  have hfresh : ∀ j, (s.after i o).accepted ≤ j → (s.after i o).get j = none := by
    intro j hj
    have hne : j ≠ i := by
      rintro rfl
      cases (h.fresh j hj).symm.trans hc
    rw [after_get hne]
    exact h.fresh j hj
  refine .of_base hfresh (fun j c' hc' => ?_) (fun j k e hj hk => ?_) hbase'
  · by_cases hji : j = i
    · subst hji
      obtain ⟨hopen, rfl⟩ := after_get_self hc'
      exact ⟨call.run_valid hvalid hrun hopen, call.run_placed hvalid hplaced hrun hopen⟩
    · rw [after_get hji] at hc'
      exact h.connection j c' hc'
  · by_cases hji : j = i
    · subst hji
      by_contra hne
      exact (hbase'.fills e hj).2 ⟨k, lt_of_region hfresh hk, fun hkj => hne hkj.symm, hk⟩
    · by_cases hki : k = i
      · subst hki
        exact absurd ⟨j, lt_of_region hfresh hj, hji, hj⟩ (hbase'.fills e hk).2
      · rw [after_region hji] at hj
        rw [after_region hki] at hk
        exact h.distinct j k e hj hk

theorem accept_get {c : Connection} {j : Nat} (hj : j ≠ s.accepted) :
    (s.accept c).get j = s.get j := if_neg hj

theorem Owned.accept {c : Connection} (h : s.Owned es) (hc : c.Valid ∧ c.Placed) (hl : c.lock = none)
    (hr : c.region = none) : (s.accept c).Owned es := by
  have hself : (s.accept c).get s.accepted = some c := if_pos rfl
  have hold : s.get s.accepted = none := h.fresh _ le_rfl
  have hlock : ∀ j, (s.accept c).lock j = s.lock j := by
    intro j
    by_cases hj : j = s.accepted
    · rw [hj, lock_eq hself, hl, lock, hold]
      rfl
    · exact congrArg (Option.bind · Connection.lock) (accept_get hj)
  have hregion : ∀ j, (s.accept c).region j = s.region j := by
    intro j
    by_cases hj : j = s.accepted
    · rw [hj, region_eq hself, hr, region, hold]
      rfl
    · exact congrArg (Option.bind · Connection.region) (accept_get hj)
  have hheld : (s.accept c).heldElsewhere s.accepted = s.heldElsewhere s.accepted := by
    funext p
    unfold heldElsewhere
    have hrange : (Finset.range (s.accept c).accepted).erase s.accepted =
        (Finset.range s.accepted).erase s.accepted := by
      ext j
      simp only [CacheServer.Connections.accept, Finset.mem_erase, Finset.mem_range]
      omega
    rw [hrange]
    refine congrArg Finset.card (Finset.filter_congr fun j _ => ?_)
    rw [hlock]
  have hfilled : (s.accept c).FilledElsewhere s.accepted = s.FilledElsewhere s.accepted := by
    funext e
    refine propext ⟨fun ⟨j, hj, hne, hr⟩ => ⟨j, ?_, hne, ?_⟩, fun ⟨j, hj, hne, hr⟩ => ⟨j, ?_, hne, ?_⟩⟩
    · have hlt : j < s.accepted + 1 := hj
      omega
    · rwa [hregion] at hr
    · exact Nat.lt_succ_of_lt hj
    · rwa [hregion]
  have hbase := h.base s.accepted
  rw [← hheld, ← hfilled, ← hlock, ← hregion] at hbase
  refine .of_base (s := s.accept c) (fun j hj => ?_) (fun j c' hc' => ?_) (fun j k e hj hk => ?_) hbase
  · have hj' : s.accepted + 1 ≤ j := hj
    rw [accept_get (by omega)]
    exact h.fresh j (by omega)
  · by_cases hj : j = s.accepted
    · subst hj
      cases hself.symm.trans hc'
      exact hc
    · rw [accept_get hj] at hc'
      exact h.connection j c' hc'
  · rw [hregion] at hj hk
    exact h.distinct j k e hj hk

theorem Owned.answer (h : s.Owned es) (answers : Answers) :
    Owned { s with world := setAnswers s.world answers } es :=
  ⟨h.fresh, h.connection, h.distinct, fun i => (h.base i).same rfl rfl⟩

theorem step_call {call : ConnectionCall} (h : s.step (.call i call) = .ok s') :
    ∃ c o, s.get i = some c ∧ call.run c s.world = .ok o ∧ s' = s.after i o := by
  simp only [Connections.step] at h
  split at h
  · cases h
  · rename_i c hc
    split at h
    · cases h
    · rename_i o hrun
      cases h
      exact ⟨c, o, hc, hrun, rfl⟩

/-- One step: the entries that it does not evict stay, and all but the one that its connection
fills keep their bytes. -/
theorem Owned.step {a : Action} (h : s.Owned es) (careful : s.Careful a) (hstep : s.step a = .ok s') :
    ∃ es', s'.Owned es' ∧ ∀ e ∈ es, ¬ s.Evicts a e →
      e ∈ es' ∧ (s.filledBy a ≠ some e → SameEntry e s.world.memory s'.world.memory) := by
  cases a with
  | accept fileDescriptor header arguments =>
    cases hstep
    refine ⟨es, h.accept ⟨connectionInit_valid .., placed_of_state ?_⟩ rfl rfl, ?_⟩
    · intro hs
      cases hs
    · exact fun e he _ => ⟨he, fun _ => SameEntry.refl e _⟩
  | answer answers =>
    cases hstep
    exact ⟨es, h.answer answers, fun e he _ => ⟨he, fun _ => SameEntry.refl e _⟩⟩
  | call i call =>
    obtain ⟨c, o, hc, hrun, rfl⟩ := step_call hstep
    obtain ⟨es', howned, hkeeps⟩ := h.call hc (careful c hc) hrun
    refine ⟨es', howned, fun e he hevicts => ?_⟩
    obtain ⟨hmem, hspares⟩ := hkeeps e he fun h => hevicts ⟨c, hc, h⟩
    exact ⟨hmem, fun hne => (hspares hne).same⟩

/-- No careful step evicts an entry that is locked or being filled. -/
theorem Owned.not_evicts {a : Action} {e : Slot} (h : s.Owned es) (careful : s.Careful a) (he : e ∈ es)
    (hguarded : 0 < s.holders e.pointer ∨ ∃ j, s.region j = some e) : ¬ s.Evicts a e := by
  cases a with
  | accept | answer => exact id
  | call i call =>
    rintro ⟨c, hc, hevicts⟩
    obtain ⟨hvalid, hplaced⟩ := h.connection i c hc
    have hbase := h.base i
    rw [lock_eq hc, region_eq hc] at hbase
    refine call.not_evicts hvalid hplaced (careful c hc) hbase he ?_ hevicts
    rcases hguarded with hpos | ⟨j, hj⟩
    · rw [holders_eq h.fresh i, lock_eq hc] at hpos
      refine Or.inl ?_
      by_contra hnone
      push Not at hnone
      rw [if_neg hnone.2] at hpos
      omega
    · by_cases hji : j = i
      · rw [hji, region_eq hc] at hj
        exact Or.inr (Or.inr hj)
      · exact Or.inr (Or.inl ⟨j, lt_of_region h.fresh hj, hji, hj⟩)

end

end Connections

/-! ### Runs -/

/-- The states of a run whose steps all meet the guard. -/
inductive GuardedRun (guard : Connections → Action → Prop) (hash : List UInt8 → Nat)
    (capacityBytes : Nat) (memory : Memory) : Connections → Prop
  | opened : GuardedRun guard hash capacityBytes memory (connectionsOpen hash capacityBytes memory)
  | stepped {s s' : Connections} (a : Action) (run : GuardedRun guard hash capacityBytes memory s)
      (guarded : guard s a) (step : s.step a = .ok s') : GuardedRun guard hash capacityBytes memory s'

abbrev CarefulRun := GuardedRun Connections.Careful

section
variable {hash : List UInt8 → Nat} {capacityBytes : Nat} {memory : Memory} {s : Connections}

theorem Connections.Owned.opened (hcap : capacityBytes < 2 ^ 64) :
    (connectionsOpen hash capacityBytes memory).Owned [] := by
  have hring : Ring (cacheServerOpen hash capacityBytes memory).world.store [] :=
    (QueueInvariant.opened memory ⟨hash, []⟩ hcap).ring
  refine .of_base (i := 0) (fun _ _ => rfl) (fun i c hc => by cases hc)
    (fun i j e hi => by cases hi) ⟨hring, by simp, by simp, fun p hp => ?_, fun e he => ?_,
      fun e he => by cases he⟩
  · rcases hp with hp | hp
    · exact absurd hp (by simp [Connections.heldElsewhere, connectionsOpen])
    · cases hp
  · obtain ⟨j, -, -, hj⟩ := he
    cases hj

theorem CarefulRun.owned (hcap : capacityBytes < 2 ^ 64) (run : CarefulRun hash capacityBytes memory s) :
    ∃ es, s.Owned es := by
  induction run with
  | opened => exact ⟨[], .opened hcap⟩
  | stepped a run careful step ih =>
    obtain ⟨es, howned⟩ := ih
    obtain ⟨es', howned', -⟩ := howned.step careful step
    exact ⟨es', howned'⟩

end

end CacheServer
