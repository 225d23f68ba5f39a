import CacheServer.Library.Fuel
import CacheServer.Ring.Tracking

/-!
# Runs of the allocator

A run starts with `memory_queue_open` and goes on with allocations and with
changes to the live entries by their owners.
-/

namespace CacheServer
open EntryHeader

/-! ### The walk along the ring -/

def slotAt (m : Memory) (p : Nat) : Slot :=
  ⟨p, keySize m (ringPointer p), valueSize m (ringPointer p)⟩

/-- A header that is an end_of_buffer marker sends the walk to 0. -/
def jump (m : Memory) (p : Nat) : Nat := if endOfBuffer m (ringPointer p) ≠ 0 then 0 else p

/-- The `n` entries from `p` on. -/
def walk (m : Memory) : Nat → Nat → List Slot
  | 0, _ => []
  | n + 1, p => slotAt m p :: walk m n (jump m (slotAt m p).stop)

/-- The position after the last entry. -/
def lastStop (s : Store) (es : List Slot) : Nat :=
  (es.getLast?.map Slot.stop).getD s.queue.readIndex

/-- The ring as its callers see it. -/
structure WellLaid (s : Store) (es : List Slot) : Prop where
  count : s.queue.entryCount = es.length
  apart : es.Pairwise Slot.Apart
  inside : ∀ e ∈ es, e.stop ≤ s.queue.capacityBytes
  walked : walk s.memory s.queue.entryCount s.queue.readIndex = es
  ends : lastStop s es = s.queue.writeIndex ∨
    endOfBuffer s.memory (ringPointer (lastStop s es)) = 1 ∧ s.queue.writeIndex = 0
  occupied : s.queue.occupiedBytes = (es.map Slot.size).sum

theorem slotAt_eq {m : Memory} {e : Slot} (h : HeaderAt m e) : slotAt m e.offset = e := by
  have hk : EntryHeader.keySize m (ringPointer e.offset) = e.keySize := h.keySize
  have hv : EntryHeader.valueSize m (ringPointer e.offset) = e.valueSize := h.valueSize
  simp only [slotAt, hk, hv]

theorem Segment.walk {m : Memory} {p q : Nat} {es : List Slot} (h : Segment m p es q) (hne : es ≠ [])
    (n : Nat) : walk m (es.length + n) p = es ++ walk m n (jump m q) := by
  induction es generalizing p with
  | nil => exact absurd rfl hne
  | cons e es ih =>
    have hlen : (e :: es).length + n = (es.length + n) + 1 := by
      simp only [List.length_cons]
      omega
    have he : slotAt m p = e := by
      rw [← h.tiled.1]
      exact slotAt_eq (h.headers e (List.mem_cons_self ..))
    rw [hlen, CacheServer.walk, he, List.cons_append]
    cases es with
    | nil =>
      have hstop : e.stop = q := h.tiled.2.2
      rw [hstop]
      simp
    | cons x xs =>
      have hlt := h.tail.tiled.lt_of_ne_nil (by simp)
      have hflag := h.inner e (List.mem_cons_self ..) (by omega)
      have hjump : jump m e.stop = e.stop := by rw [jump, hflag, if_neg (by decide)]
      rw [hjump, ih h.tail (by simp)]

theorem RingLayout.walk {m : Memory} {capacity r w : Nat} {es : List Slot}
    (h : RingLayout m capacity r w es) : walk m es.length r = es := by
  cases h with
  | linear all =>
    by_cases hne : es = []
    · rw [hne]
      rfl
    · have hw := all.walk hne 0
      rwa [CacheServer.walk, List.append_nil] at hw
  | wrapped nonempty high marked inside low gap =>
    rename_i upper lower marker
    have hjump : jump m marker = 0 := by rw [jump, marked, if_pos (by decide)]
    rw [List.length_append, high.walk nonempty, hjump]
    by_cases hne : lower = []
    · rw [hne]
      rfl
    · have hw := low.walk hne 0
      rw [CacheServer.walk, List.append_nil, Nat.add_zero] at hw
      rw [hw]

theorem Ring.ends {s : Store} {es : List Slot} (h : Ring s es) :
    lastStop s es = s.queue.writeIndex ∨
      endOfBuffer s.memory (ringPointer (lastStop s es)) = 1 ∧ s.queue.writeIndex = 0 := by
  have hl := h.layout
  unfold lastStop
  generalize s.queue = q at hl ⊢
  cases hl with
  | linear all =>
    refine Or.inl ?_
    by_cases hne : es = []
    · subst hne
      exact all.tiled
    · rw [all.tiled.getLast_stop hne]
      rfl
  | wrapped nonempty high marked inside low gap =>
    rename_i upper lower marker
    by_cases hne : lower = []
    · subst hne
      rw [List.append_nil, high.tiled.getLast_stop nonempty]
      exact Or.inr ⟨marked, Eq.symm low.tiled⟩
    · rw [List.getLast?_append_of_ne_nil _ hne, low.tiled.getLast_stop hne]
      exact Or.inl rfl

theorem Ring.wellLaid {s : Store} {es : List Slot} (h : Ring s es) : WellLaid s es where
  count := h.count
  apart := h.layout.pairwise_apart
  inside := h.inside
  walked := by
    rw [h.count]
    exact h.layout.walk
  ends := h.ends
  occupied := h.bytes

/-! ### Runs -/

/-- The last entry_count of the entries allocated so far. -/
def live (past : List Slot) (s : Store) : List Slot :=
  past.drop (past.length - s.queue.entryCount)

/-- Only locks, active, expiry and payload of the entries `es` differ. -/
structure Touched (m m' : Memory) (es : List Slot) : Prop where
  outside : ∀ a, (∀ e ∈ es, a < e.offset ∨ e.stop ≤ a) → m' .ring a = m .ring a
  sizes : ∀ e ∈ es, ∀ a, e.offset + 8 ≤ a → a < e.offset + 14 → m' .ring a = m .ring a
  marker : ∀ e ∈ es, endOfBuffer m' e.pointer = endOfBuffer m e.pointer

/-- The entry that a call has allocated, if any. -/
def added (keySize valueSize : Nat) : MemoryQueueResult → Option Pointer → List Slot
  | .success, some p => [⟨p.offset, keySize, valueSize⟩]
  | _, _ => []

/-- The stores reached with the allocations `past`, oldest first. The index is not the
allocator's; all that a call asks of it is `SafeIndex`. -/
inductive QueueRun (capacity : Nat) : List Slot → Store → Prop
  | opened (memory : Memory) (hashmap : Hashmap) :
      QueueRun capacity [] ⟨memory, memoryQueueOpen capacity, hashmap⟩
  | touched {past : List Slot} {s : Store} {memory : Memory} (hashmap : Hashmap)
      (run : QueueRun capacity past s) (change : Touched s.memory memory (live past s)) :
      QueueRun capacity past { s with memory, hashmap }
  | allocated {past : List Slot} {s s' : Store} {keySize valueSize expiry : Nat}
      {entryHeader p : Option Pointer} {result : MemoryQueueResult} (run : QueueRun capacity past s)
      (key : keySize < 2 ^ 16) (value : valueSize < 2 ^ 32)
      (size : entryHeaderSize + keySize + valueSize + entryHeaderSize ≤ capacity)
      (index : SafeIndex s (live past s))
      (call : memoryQueueAllocate s keySize valueSize expiry entryHeader = .ok (result, p, s')) :
      QueueRun capacity (past ++ added keySize valueSize result p) s'

/-- A call of `memory_queue_allocate` that has removed the entries `gone` and left `rest`. -/
structure AllocateCall (past : List Slot) (s : Store) (keySize valueSize : Nat)
    (result : MemoryQueueResult) (p : Option Pointer) (s' : Store) (gone rest : List Slot) :
    Prop where
  prefixed : live past s = gone ++ rest
  unlocked : ∀ e ∈ gone, locks s.memory e.pointer = 0
  left : live (past ++ added keySize valueSize result p) s' = rest ++ added keySize valueSize result p
  ending :
    (result = .success ∧ ∃ e : Slot, p = some e.pointer ∧ e.keySize = keySize ∧
      e.valueSize = valueSize ∧ active s'.memory e.pointer = 0 ∧ locks s'.memory e.pointer = 0) ∨
    (result = .writeBlocked ∧ ∃ e, rest.head? = some e ∧ locks s'.memory e.pointer ≠ 0)

/-- What the run keeps: the ring, and room for a marker at write_index. -/
structure QueueInvariant (capacity : Nat) (past : List Slot) (s : Store) : Prop where
  ring : Ring s (live past s)
  capacity_eq : s.queue.capacityBytes = capacity
  marker : s.queue.writeIndex = 0 ∨ s.queue.writeIndex + entryHeaderSize ≤ capacity

theorem live_suffix (past : List Slot) (s : Store) : live past s <:+ past :=
  List.drop_suffix _ _

theorem live_of_suffix {past rest : List Slot} {s : Store} (h : rest <:+ past)
    (hc : s.queue.entryCount = rest.length) : live past s = rest := by
  rw [live, hc]
  exact (List.suffix_iff_eq_drop.mp h).symm

theorem Touched.layout {m m' : Memory} {capacity r w : Nat} {es : List Slot}
    (h : Touched m m' es) (hl : RingLayout m capacity r w es) : RingLayout m' capacity r w es := by
  refine hl.congr h.sizes fun a ha => ?_
  by_cases hstart : ∃ e ∈ es, e.offset = a
  · obtain ⟨e, he, rfl⟩ := hstart
    exact h.marker e he
  · refine endOfBuffer_congr (h.outside a fun e he => ?_)
    have hne : e.offset ≠ a := fun heq => hstart ⟨e, he, heq⟩
    rcases ha e he with hlt | hge <;> omega

section
variable {capacity k v : Nat} {past : List Slot} {s : Store}

theorem QueueInvariant.opened (memory : Memory) (hashmap : Hashmap) (hc : capacity < 2 ^ 64) :
    QueueInvariant capacity [] ⟨memory, memoryQueueOpen capacity, hashmap⟩ where
  ring := ⟨.linear ⟨rfl, by simp [live], by simp [live]⟩, rfl, rfl, by simp [live],
    Nat.zero_le _, hc⟩
  capacity_eq := rfl
  marker := Or.inl rfl

theorem QueueInvariant.touched (h : QueueInvariant capacity past s) {memory : Memory}
    (hashmap : Hashmap) (change : Touched s.memory memory (live past s)) :
    QueueInvariant capacity past { s with memory, hashmap } where
  ring := ⟨change.layout h.ring.layout, h.ring.count, h.ring.bytes, h.ring.inside, h.ring.write_le,
    h.ring.capacity_lt⟩
  capacity_eq := h.capacity_eq
  marker := h.marker

theorem Tracked.live_blocked {s' : Store} {size : Nat} {e : Slot} {es : List Slot}
    (h : Tracked s size (live past s) (e :: es) s') : live past (unpublish s' e) = e :: es := by
  obtain ⟨gone, hes, _⟩ := h.dropped
  exact live_of_suffix ((List.suffix_append gone (e :: es)).trans (hes ▸ live_suffix past s))
    (h.ring.unpublish h.safe).count

theorem Tracked.live_placed {s' : Store} {size expiry : Nat} {es : List Slot}
    (h : Tracked s size (live past s) es s')
    (hr : Ring (place s' k v expiry) (es ++ [⟨s'.queue.writeIndex, k, v⟩])) :
    live (past ++ [⟨s'.queue.writeIndex, k, v⟩]) (place s' k v expiry) =
      es ++ [⟨s'.queue.writeIndex, k, v⟩] := by
  obtain ⟨gone, hes, _⟩ := h.dropped
  refine live_of_suffix ?_ hr.count
  obtain ⟨front, hfront⟩ := (List.suffix_append gone es).trans (hes ▸ live_suffix past s)
  exact ⟨front, by rw [← hfront, List.append_assoc]⟩

/-- One call: it returns, and what it leaves is a state of the run again. -/
theorem QueueInvariant.allocate (h : QueueInvariant capacity past s) (hcap : capacity < 2 ^ 32)
    (hk : k < 2 ^ 16) (hv : v < 2 ^ 32)
    (hsize : entryHeaderSize + k + v + entryHeaderSize ≤ capacity)
    (index : SafeIndex s (live past s)) (expiry : Nat) (entryHeader : Option Pointer) :
    ∃ result p s' gone rest, memoryQueueAllocate s k v expiry entryHeader = .ok (result, p, s') ∧
      AllocateCall past s k v result p s' gone rest ∧
      QueueInvariant capacity (past ++ added k v result p) s' := by
  have hfits : entryHeaderSize + k + v < 2 ^ 32 := by omega
  have htotal := totalSize_eq hfits
  have hcapacity := h.capacity_eq
  have hcall := h.ring.allocate index k v expiry entryHeader
  generalize memoryQueueAllocate s k v expiry entryHeader = r at hcall
  cases hcall with
  | outOfMemory large => omega
  | outOfBounds narrow =>
    rcases h.marker with hw | hw <;> omega
  | writeBlocked pointer holds overrun locked =>
    rename_i e es s'
    obtain ⟨gone, hes, hgone⟩ := holds.dropped
    have hring := holds.ring.unpublish holds.safe
    have hlive := holds.live_blocked
    have hq : (unpublish s' e).queue = s'.queue := unpublish_queue s' e
    have hlocks : locks (unpublish s' e).memory e.pointer = locks s'.memory e.pointer :=
      locks_congr fun a h1 h2 => unpublish_inside holds.safe
        (holds.ring.layout.boundary (List.mem_cons_self ..)) (List.mem_cons_self ..) h1 h2
    have hleft : live (past ++ added k v .writeBlocked (some pointer)) (unpublish s' e) =
        (e :: es) ++ added k v .writeBlocked (some pointer) := by
      simpa [added] using hlive
    refine ⟨_, _, _, gone, e :: es, rfl, ⟨hes, fun x hx => (hgone x hx).2, hleft,
      Or.inr ⟨rfl, e, rfl, by rwa [hlocks]⟩⟩, ⟨?_, ?_, ?_⟩⟩
    · rw [hleft]
      simpa [added] using hring
    · rw [hq, holds.capacity, hcapacity]
    · rw [hq]
      exact holds.write.elim (fun hw => by rw [hw]; exact h.marker) Or.inl
  | success holds room fits start =>
    rename_i es s'
    obtain ⟨gone, hes, hgone⟩ := holds.dropped
    have hring := holds.ring.place hk hv hfits room fits expiry
    have hlive := holds.live_placed hring
    refine ⟨_, _, _, gone, es, rfl, ⟨hes, fun x hx => (hgone x hx).2, hlive,
      Or.inl ⟨rfl, ⟨s'.queue.writeIndex, k, v⟩, rfl, rfl, rfl, active_writeHeader ..,
        locks_writeHeader ..⟩⟩, ⟨?_, ?_, ?_⟩⟩
    · exact hlive ▸ hring
    · exact holds.capacity.trans hcapacity
    · refine Or.inr ?_
      show s'.queue.writeIndex + totalSize k v + entryHeaderSize ≤ capacity
      rw [start]
      split
      · omega
      · rename_i hwraps
        unfold wraps at hwraps
        omega

theorem QueueRun.invariant (run : QueueRun capacity past s) (hcap : capacity < 2 ^ 32) :
    QueueInvariant capacity past s := by
  induction run with
  | opened memory hashmap => exact .opened memory hashmap (by omega)
  | touched hashmap run change ih => exact ih.touched hashmap change
  | @allocated past s s' keySize valueSize expiry entryHeader p result run key value size index call ih =>
    obtain ⟨result', p', s'', gone, rest, hcall, _, hinv⟩ :=
      ih.allocate hcap key value size index expiry entryHeader
    rw [call] at hcall
    cases hcall
    exact hinv

/-- Any run of the allocator leaves the ring well laid, and the next call, whatever the sizes,
returns after removing unlocked entries from the front. -/
theorem memoryQueue_correct (hcap : capacity < 2 ^ 32) (run : QueueRun capacity past s) :
    WellLaid s (live past s) ∧
      ∀ k v expiry entryHeader, k < 2 ^ 16 → v < 2 ^ 32 →
        entryHeaderSize + k + v + entryHeaderSize ≤ capacity → SafeIndex s (live past s) →
        ∃ result p s' gone rest,
          memoryQueueAllocate s k v expiry entryHeader = .ok (result, p, s') ∧
            AllocateCall past s k v result p s' gone rest := by
  have hinv := run.invariant hcap
  refine ⟨hinv.ring.wellLaid, fun k v expiry entryHeader hk hv hsize index => ?_⟩
  obtain ⟨result, p, s', gone, rest, hcall, hspec, _⟩ :=
    hinv.allocate hcap hk hv hsize index expiry entryHeader
  exact ⟨result, p, s', gone, rest, hcall, hspec⟩

end

/-! ### A run that wraps -/

/-- The entries `es` are allocated one after another, at the offsets they have. -/
def allocateAll : List Slot → Store → Except Fault Store
  | [], s => .ok s
  | e :: es, s =>
    match memoryQueueAllocate s e.keySize e.valueSize 0 none with
    | .error fault => .error fault
    | .ok (result, p, s') =>
      if result = .success ∧ p = some e.pointer ∧ s.hashmap.items = [] then allocateAll es s'
      else .error .assertion

theorem QueueRun.allocateAll {capacity : Nat} {past es : List Slot} {s s' : Store}
    (hsize : ∀ e ∈ es, e.keySize < 2 ^ 16 ∧ e.valueSize < 2 ^ 32 ∧
      entryHeaderSize + e.keySize + e.valueSize + entryHeaderSize ≤ capacity)
    (run : QueueRun capacity past s) (h : CacheServer.allocateAll es s = .ok s') :
    QueueRun capacity (past ++ es) s' := by
  induction es generalizing past s with
  | nil =>
    cases h
    rwa [List.append_nil]
  | cons e es ih =>
    unfold CacheServer.allocateAll at h
    split at h
    · cases h
    · rename_i result p s₁ hcall
      split at h
      · rename_i hsuccess
        obtain ⟨rfl, rfl, hempty⟩ := hsuccess
        obtain ⟨hk, hv, hfits⟩ := hsize e (List.mem_cons_self ..)
        have hindex : SafeIndex s (live past s) :=
          Or.inr fun item hitem => by rw [hempty] at hitem; cases hitem
        have hrun := ih (fun x hx => hsize x (List.mem_cons_of_mem _ hx))
          (run.allocated hk hv hfits hindex hcall) h
        rw [List.append_assoc] at hrun
        exact hrun
      · cases h

/- Three entries fill a ring of 80 bytes. The fourth is put to the start, in the place of the first
two, and the fifth takes that of the third. -/
theorem memoryQueue_correct_wraps : ∃ past s, QueueRun 80 past s ∧
    live past s = [⟨38, 1, 2⟩, ⟨0, 1, 2⟩] ∧ WellLaid s (live past s) ∧
    ∃ p s', memoryQueueAllocate s 1 2 0 none = .ok (.success, p, s') ∧
      AllocateCall past s 1 2 .success p s' [⟨38, 1, 2⟩] [⟨0, 1, 2⟩] := by
  have hrun : (allocateAll [⟨0, 1, 2⟩, ⟨19, 1, 2⟩, ⟨38, 1, 2⟩, ⟨0, 1, 2⟩]
      ⟨fun _ _ => 0, memoryQueueOpen 80, ⟨fun _ => 0, []⟩⟩).Gives fun s =>
        s.queue.entryCount = 2 ∧ s.hashmap.items = [] ∧
          (memoryQueueAllocate s 1 2 0 none).Gives fun r =>
            r.1 = .success ∧ r.2.1 = some (ringPointer 19) ∧ r.2.2.queue.entryCount = 2 := by
    decide +kernel
  obtain ⟨s, hs, hcount, hempty, ⟨result, p, s'⟩, hcall, hsuccess, hp, hcount'⟩ := hrun
  have hsuccess : result = .success := hsuccess
  have hp : p = some (ringPointer 19) := hp
  have hcount' : s'.queue.entryCount = 2 := hcount'
  subst hsuccess hp
  have hqueue := QueueRun.allocateAll (by decide)
    (.opened (fun _ _ => 0) ⟨fun _ => 0, []⟩) hs
  have hlive : live ([] ++ [⟨0, 1, 2⟩, ⟨19, 1, 2⟩, ⟨38, 1, 2⟩, ⟨0, 1, 2⟩]) s =
      [⟨38, 1, 2⟩, ⟨0, 1, 2⟩] := by
    rw [live, hcount]
    rfl
  obtain ⟨hlaid, hnext⟩ := memoryQueue_correct (by decide) hqueue
  obtain ⟨result, p, s'', gone, rest, hcall', hspec⟩ := hnext 1 2 0 none (by decide) (by decide)
    (by decide) (Or.inr fun item hitem => by rw [hempty] at hitem; cases hitem)
  cases hcall.symm.trans hcall'
  have hrest : rest.length = 1 := by
    have hleft := congrArg List.length hspec.left
    rw [live, hcount'] at hleft
    simpa [added] using hleft.symm
  obtain ⟨rfl, rfl⟩ : gone = [⟨38, 1, 2⟩] ∧ rest = [⟨0, 1, 2⟩] :=
    List.append_inj' (hspec.prefixed.symm.trans hlive) hrest
  exact ⟨_, s, hqueue, hlive, hlaid, _, s', hcall, hspec⟩

end CacheServer
