import CacheServer.Model.Server
import CacheServer.Ring.Admission

/-!
# The allocation of a PUT

`memory_queue_allocate` reserves, `attempt_memory_write` receives and
`remove_entry` reclaims 16 + key_size + value_size bytes. Each computes this sum
on its own, in 32 bits. Where the allocation is blocked, the connection waits
under the pointer that the allocation leaves.
-/

namespace CacheServer
open EntryHeader

/-! ### Sizes -/

section
variable {s s' : Store} {p : Pointer} {p₀ : Option Pointer} {k v expiry capacity : Nat}
  {past es : List Slot}

end

/-- The connection is left with the pointer to the entry at read_index, and that entry is locked. -/
def WaitsOnBlocker (past : List Slot) (o : Outcome System) : Prop :=
  ∃ e, (live past o.world.store).head? = some e ∧
    ringPointer o.world.system.queue.readIndex = e.pointer ∧
    locks o.world.memory e.pointer ≠ 0 ∧ o.connection.entryHeader = some e.pointer

/-- The oldest live entry that is locked. -/
def firstLocked (past : List Slot) (s : Store) : Option Slot :=
  (live past s).find? fun e => locks s.memory e.pointer ≠ 0

section
variable {capacity : Nat} {past es rest : List Slot} {s s' : Store} {e : Slot} {c : Connection}
  {w : World System} {o : Outcome System}

theorem attemptMemoryWrite_blocked (call : attemptMemoryWrite serverServices c w = .ok o)
    (blocked : o.result = .writeBlocked) :
    ∃ p s', memoryQueueAllocate w.store c.keySize c.valueSize
        (w.system.answers.timestamp + w.system.answers.entryExpiryMicros) c.entryHeader =
          .ok (.writeBlocked, p, s') ∧
      o.connection.entryHeader = p ∧ o.world.store = s' := by
  unfold attemptMemoryWrite at call
  simp only [serverServices] at call
  cases hallocate : memoryQueueAllocate w.store c.keySize c.valueSize
      (w.system.answers.timestamp + w.system.answers.entryExpiryMicros) c.entryHeader with
  | error fault =>
    simp only [hallocate] at call
    cases call
  | ok r =>
    obtain ⟨result, p, s'⟩ := r
    simp only [hallocate] at call
    cases result with
    | writeBlocked =>
      cases call
      exact ⟨p, s', rfl, rfl, rfl⟩
    | outOfMemory =>
      cases call
      cases blocked
    | success | none =>
      cases p with
      | none => cases call
      | some p =>
        cases call
        cases blocked

/- A blocked allocation has removed the unlocked entries in front of the first locked one. -/
theorem Tracked.firstLocked {size : Nat} (h : Tracked s size (live past s) (e :: rest) s')
    (locked : locks s.memory e.pointer ≠ 0) : firstLocked past s = some e := by
  obtain ⟨gone, hlive, hgone⟩ := h.dropped
  rw [CacheServer.firstLocked, List.find?_eq_some_iff_append]
  refine ⟨by simpa using locked, gone, rest, hlive, fun x hx => ?_⟩
  have hunlocked := (hgone x hx).2
  simp [hunlocked]

/- Where write_index is not above read_index, the two are equal only at the start of the buffer. -/
theorem Ring.indexes_eq_iff (h : Ring s (e :: es)) (hw : s.queue.writeIndex ≤ s.queue.readIndex) :
    s.queue.writeIndex = e.offset ↔ e.offset = 0 := by
  have hread := h.readIndex_eq
  constructor
  · intro heq
    obtain ⟨upper, lower, marker, -, -, -, -, low, gap⟩ := h.layout.upper_of_le hw
    by_cases hlow : lower = []
    · subst hlow
      have hzero : 0 = s.queue.writeIndex := low.tiled
      omega
    · have := gap hlow
      omega
  · intro hzero
    omega

/-- In any run: a blocked write waits under the entry that blocks it if and only if that entry lies
at the start of the buffer. -/
theorem attemptMemoryWrite_waits_iff (hcap : capacity < 2 ^ 64)
    (run : AllocatorRun capacity (fun k v => entryHeaderSize + k + v < 2 ^ 32) past w.store)
    (index : SafeIndex w.store (live past w.store))
    (call : attemptMemoryWrite serverServices c w = .ok o) (blocked : o.result = .writeBlocked) :
    WaitsOnBlocker past o ↔ (firstLocked past w.store).map Slot.offset = some 0 := by
  obtain ⟨hring, -⟩ := run.ring (fun _ _ hfits => hfits) hcap
  obtain ⟨p, s', hallocate, hpointer, hstore⟩ := attemptMemoryWrite_blocked call blocked
  obtain ⟨rfl, hle⟩ := memoryQueueAllocate_blocked hallocate
  have hend := hring.allocated index c.keySize c.valueSize
    (w.system.answers.timestamp + w.system.answers.entryExpiryMicros) c.entryHeader
  rw [hallocate] at hend
  generalize hr : Except.ok (MemoryQueueResult.writeBlocked,
    some (ringPointer s'.queue.writeIndex), s') = r at hend
  cases hend with
  | outOfMemory | outOfBounds | success => cases hr
  | @writeBlocked e rest s₁ pointer tracked overrun locked =>
    obtain ⟨hp, rfl⟩ : ringPointer s'.queue.writeIndex = pointer ∧ s' = unpublish s₁ e := by
      cases hr
      exact ⟨rfl, rfl⟩
    have hafter := tracked.ring.unpublish tracked.safe
    have hlive := tracked.live_blocked
    have hlocks : locks (unpublish s₁ e).memory e.pointer = locks s₁.memory e.pointer :=
      locks_congr fun a h1 h2 => unpublish_inside tracked.safe
        (tracked.ring.layout.boundary (List.mem_cons_self ..)) (List.mem_cons_self ..) h1 h2
    have hlocked := tracked.locks_eq (List.mem_cons_self ..)
    have hmemory : o.world.memory = (unpublish s₁ e).memory := congrArg StoreOver.memory hstore
    have hqueue : o.world.system.queue = (unpublish s₁ e).queue := congrArg StoreOver.queue hstore
    rw [tracked.firstLocked locked, Option.map_some, Option.some.injEq,
      ← hafter.indexes_eq_iff hle]
    constructor
    · rintro ⟨x, hhead, -, -, hwaits⟩
      rw [hstore, hlive] at hhead
      cases hhead
      rw [hpointer] at hwaits
      exact congrArg Pointer.offset (Option.some.inj hwaits)
    · intro heq
      refine ⟨e, by rw [hstore, hlive]; rfl, ?_, ?_, ?_⟩
      · rw [hqueue]
        exact hafter.oldest
      · rw [hmemory, hlocks, hlocked]
        exact locked
      · rw [hpointer, heq]
        rfl

/- A lock is taken by its holder while the entry is live. -/
theorem Ring.touched_locks (h : Ring s es) (he : e ∈ es) (n : Nat) :
    Touched s.memory (setLocks s.memory e.pointer n) es where
  outside a ha := by
    have hle := e.header_le
    refine store_outside _ _ _ _ _ (Or.inr ?_)
    show a < e.offset + 14 ∨ e.offset + 14 + 2 ≤ a
    rcases ha e he with hlt | hge
    · omega
    · omega
  sizes x hx a h1 h2 := by
    have hle := e.header_le
    have hle' := x.header_le
    refine store_outside _ _ _ _ _ (Or.inr ?_)
    show a < e.offset + 14 ∨ e.offset + 14 + 2 ≤ a
    rcases h.layout.apart hx he with rfl | hapart | hapart
    · omega
    · omega
    · omega
  marker x hx := by
    refine endOfBuffer_congr (store_outside _ _ _ _ _ (Or.inr ?_))
    show x.offset < e.offset + 14 ∨ e.offset + 14 + 2 ≤ x.offset
    rcases h.layout.boundary hx e he with hlt | hge
    · omega
    · have hle := e.header_le
      omega

end

/- A ring of 64 bytes with entries of 20 bytes, of which one is locked, and a PUT request. -/
def ringOf (s : Store) : World System :=
  ⟨s.memory, s.queue, s.hashmap, ⟨false, false, 0, 0, false⟩, [], 0⟩

def oneEntry : Store := place ⟨fun _ _ => 0, memoryQueueOpen 64, ⟨fun _ => 0, []⟩⟩ 1 3 0

def lockAt (s : Store) (offset : Nat) : Store :=
  { s with memory := setLocks s.memory (ringPointer offset) 1 }

def putOf (keySize valueSize : UInt8) : Connection :=
  connectionInit 0 (fun _ => 0) fun a => if a = 0 then keySize else if a = 2 then valueSize else 0

theorem oneEntry_run :
    AllocatorRun 64 (fun k v => entryHeaderSize + k + v < 2 ^ 32) [⟨0, 1, 3⟩] oneEntry :=
  @AllocatorRun.allocated 64 _ [] _ _ 1 3 0 none _ .success
    (.opened (fun _ _ => 0) ⟨fun _ => 0, []⟩) (by decide) (by decide) (by decide)
    (Or.inr fun item hitem => by cases hitem) rfl

theorem AllocatorRun.lockAt {Fits : Nat → Nat → Prop} {capacity offset : Nat} {past : List Slot}
    {s : Store} (run : AllocatorRun capacity Fits past s)
    (hfits : ∀ k v, Fits k v → entryHeaderSize + k + v < 2 ^ 32) (hcap : capacity < 2 ^ 64)
    (he : ∃ e ∈ live past s, e.offset = offset) :
    AllocatorRun capacity Fits past (CacheServer.lockAt s offset) := by
  obtain ⟨e, he, rfl⟩ := he
  exact run.touched s.hashmap ((run.ring hfits hcap).1.touched_locks he 1)

theorem attemptMemoryWrite_waits_at_start : ∃ past c w o,
    AllocatorRun 64 (fun k v => entryHeaderSize + k + v < 2 ^ 32) past (World.store w) ∧
      attemptMemoryWrite serverServices c w = .ok o ∧ o.result = .writeBlocked ∧
      WaitsOnBlocker past o := by
  have hrun : AllocatorRun 64 _ _ (ringOf (lockAt oneEntry 0)).store :=
    oneEntry_run.lockAt (fun _ _ hfits => hfits) (by decide) ⟨⟨0, 1, 3⟩, by decide, rfl⟩
  have hcall : ∃ o, attemptMemoryWrite serverServices (putOf 1 30) (ringOf (lockAt oneEntry 0)) =
      .ok o ∧ o.result = .writeBlocked := ⟨_, rfl, rfl⟩
  obtain ⟨o, hcall, hblocked⟩ := hcall
  have hiff := attemptMemoryWrite_waits_iff (by decide) hrun
    (Or.inr fun item hitem => by cases hitem) hcall hblocked
  exact ⟨_, _, _, o, hrun, hcall, hblocked, hiff.mpr rfl⟩

/- With a second entry, which is locked, a request for 20 bytes waits under the first. -/
theorem blocked_write_waits_elsewhere : ∃ past c w o,
    AllocatorRun 64 (fun k v => entryHeaderSize + k + v < 2 ^ 32) past (World.store w) ∧
      attemptMemoryWrite serverServices c w = .ok o ∧ o.result = .writeBlocked ∧
      o.connection.entryHeader = some (ringPointer 0) ∧ o.world.system.queue.readIndex = 20 ∧
      locks o.world.memory (ringPointer 20) = 1 := by
  have hsecond := @AllocatorRun.allocated 64 _ _ _ _ 1 3 0 none _ .success oneEntry_run (by decide)
    (by decide) (by decide) (Or.inr fun item hitem => by cases hitem) rfl
  have hrun : AllocatorRun 64 _ _ (ringOf (lockAt (place oneEntry 1 3 0) 20)).store :=
    hsecond.lockAt (fun _ _ hfits => hfits) (by decide) ⟨⟨20, 1, 3⟩, by decide, rfl⟩
  exact ⟨_, putOf 1 3, _, _, hrun, rfl, rfl, rfl, rfl, rfl⟩

end CacheServer
