import CacheServer.Ring.Runs

/-!
# Runs that clean

`memory_queue_clean` gives up the oldest entry and, like an eviction, looks at
the header behind it. When no entry is left there is none: the bytes at
write_index decide, and they need not lie in the buffer. `AllocatorRun` has the
cleans that do not follow a marker found there.
-/

namespace CacheServer
open EntryHeader

/-- `memory_queue_clean` removes the entry at read_index. -/
def Removes (s : Store) (time : Nat) : Prop :=
  0 < s.queue.entryCount ∧
    (active s.memory (ringPointer s.queue.readIndex) = 0 ∨
      expiry s.memory (ringPointer s.queue.readIndex) ≤ time) ∧
    locks s.memory (ringPointer s.queue.readIndex) = 0

/-- The only entry lies before write_index, where left over bytes look like a marker. -/
def Leftover (s : Store) : Prop :=
  s.queue.entryCount = 1 ∧ s.queue.readIndex < s.queue.writeIndex ∧
    endOfBuffer s.memory (ringPointer s.queue.writeIndex) ≠ 0

instance (s : Store) (time : Nat) : Decidable (Removes s time) :=
  inferInstanceAs (Decidable (_ ∧ _ ∧ _))

instance (s : Store) : Decidable (Leftover s) := inferInstanceAs (Decidable (_ ∧ _ ∧ _))

/-- Runs of the allocator with allocations of the sizes in `Fits`. -/
inductive AllocatorRun (capacity : Nat) (Fits : Nat → Nat → Prop) : List Slot → Store → Prop
  | opened (memory : Memory) (hashmap : Hashmap) :
      AllocatorRun capacity Fits [] ⟨memory, memoryQueueOpen capacity, hashmap⟩
  | touched {past : List Slot} {s : Store} {memory : Memory} (hashmap : Hashmap)
      (run : AllocatorRun capacity Fits past s) (change : Touched s.memory memory (live past s)) :
      AllocatorRun capacity Fits past { s with memory, hashmap }
  | allocated {past : List Slot} {s s' : Store} {keySize valueSize expiry : Nat}
      {entryHeader p : Option Pointer} {result : MemoryQueueResult}
      (run : AllocatorRun capacity Fits past s) (key : keySize < 2 ^ 16) (value : valueSize < 2 ^ 32)
      (fits : Fits keySize valueSize) (index : SafeIndex s (live past s))
      (call : memoryQueueAllocate s keySize valueSize expiry entryHeader = .ok (result, p, s')) :
      AllocatorRun capacity Fits (past ++ added keySize valueSize result p) s'
  | cleaned {past : List Slot} {s s' : Store} {time : Nat} {result : MemoryQueueResult}
      (run : AllocatorRun capacity Fits past s) (index : SafeIndex s (live past s))
      (clear : Removes s time → ¬ Leftover s) (call : memoryQueueClean s time = .ok (result, s')) :
      AllocatorRun capacity Fits past s'

section
variable {capacity time k v : Nat} {Fits : Nat → Nat → Prop} {past es : List Slot} {s s' : Store}
  {e : Slot}

/-! ### memory_queue_clean on a ring -/

theorem memoryQueueClean_empty (h : Ring s []) : memoryQueueClean s time = .ok (.none, s) := by
  have hcount : s.queue.entryCount = 0 := h.count
  rw [memoryQueueClean, if_pos hcount]

theorem Ring.oldest (h : Ring s (e :: es)) : ringPointer s.queue.readIndex = e.pointer := by
  rw [h.readIndex_eq]
  rfl

theorem removes_iff (h : Ring s (e :: es)) : Removes s time ↔
    (active s.memory e.pointer = 0 ∨ expiry s.memory e.pointer ≤ time) ∧
      locks s.memory e.pointer = 0 := by
  have hcount : 0 < s.queue.entryCount := by rw [h.count]; simp
  rw [Removes, h.oldest]
  exact ⟨fun hr => hr.2, fun hr => ⟨hcount, hr⟩⟩

theorem memoryQueueClean_ring (h : Ring s (e :: es)) :
    memoryQueueClean s time =
      if Removes s time then
        if e.stop + entryHeaderSize ≤ s.queue.capacityBytes then .ok (.success, evict s e)
        else .error .outOfBounds
      else if active s.memory e.pointer = 0 ∨ expiry s.memory e.pointer ≤ time then
        .ok (.writeBlocked, s)
      else .ok (.none, s) := by
  have hcount : s.queue.entryCount ≠ 0 := by rw [h.count]; simp
  have hinside := h.inside e (List.mem_cons_self ..)
  have hle := e.header_le
  have hin : e.pointer.offset + entryHeaderSize ≤ s.queue.capacityBytes := by
    change e.offset + 16 ≤ _
    omega
  rw [memoryQueueClean, if_neg hcount]
  simp only [h.oldest, removes_iff h]
  rw [accessHeader_ok _ hin]
  by_cases hold : active s.memory e.pointer = 0 ∨ expiry s.memory e.pointer ≤ time
  · rw [if_pos hold, removeEntry_ring h]
    by_cases hl : locks s.memory e.pointer = 0
    · rw [if_neg (by simpa using hl)]
      exact (if_pos ⟨hold, hl⟩).symm
    · rw [if_pos hl, if_neg (fun hr => hl hr.2), if_pos hold]
  · rw [if_neg hold, if_neg (fun hr => hold hr.1), if_neg hold]

/- With the last entry gone, the next header is the one at write_index. -/
theorem Ring.stop_of_last (h : Ring s [e]) :
    e.stop = s.queue.writeIndex ∧ s.queue.readIndex < s.queue.writeIndex ∨
      e.stop + entryHeaderSize ≤ s.queue.capacityBytes ∧ s.queue.writeIndex = 0 := by
  have hlt := e.offset_lt
  have hread := h.readIndex_eq
  by_cases hw : s.queue.writeIndex ≤ s.queue.readIndex
  · obtain ⟨upper, lower, marker, hes, high, -, hinside, low, -⟩ := h.layout.upper_of_le hw
    obtain ⟨rfl, rfl⟩ := List.append_eq_nil_iff.mp hes.symm
    have hstop : e.stop = marker := high.tiled.2.2
    have hzero : 0 = s.queue.writeIndex := low.tiled
    exact Or.inr ⟨by omega, hzero.symm⟩
  · have hstop : e.stop = s.queue.writeIndex := (h.layout.segment_of_lt (by omega)).tiled.2.2
    exact Or.inl ⟨hstop, by omega⟩

theorem Ring.next_inside (h : Ring s (e :: es)) (hne : es ≠ []) :
    e.stop + entryHeaderSize ≤ s.queue.capacityBytes := by
  by_cases hw : s.queue.writeIndex ≤ s.queue.readIndex
  · obtain ⟨upper, lower, marker, -, high, -, hinside, -, -⟩ := h.layout.upper_of_le hw
    have hstop := (high.tiled.mem_bounds (List.mem_cons_self ..)).2.2
    omega
  · have all := (h.layout.segment_of_lt (by omega)).tail
    obtain ⟨x, xs, rfl⟩ := List.exists_cons_of_ne_nil hne
    have hx : x.offset = e.stop := all.tiled.1
    have hle := x.header_le
    have hinside := h.inside x (by simp)
    unfold entryHeaderSize
    omega

/-- A clean that removes something stays inside the buffer unless it removes the last entry
and no header fits at write_index. -/
theorem Ring.next_inside_iff (h : Ring s (e :: es)) :
    e.stop + entryHeaderSize ≤ s.queue.capacityBytes ↔
      (s.queue.entryCount = 1 → s.queue.writeIndex + entryHeaderSize ≤ s.queue.capacityBytes) := by
  have hcount := h.count
  cases es with
  | cons x xs =>
    have hin := h.next_inside (by simp)
    rw [List.length_cons, List.length_cons] at hcount
    exact ⟨fun _ hone => by omega, fun _ => hin⟩
  | nil =>
    have hone : s.queue.entryCount = 1 := hcount
    have hlast := h.stop_of_last
    constructor
    · intro hin _
      omega
    · intro hin
      have := hin hone
      omega

/-! ### Runs -/

theorem Leftover.flag (h : Ring s (e :: es)) (hl : ¬ Leftover s) (hes : es = [])
    (hlt : s.queue.readIndex < s.queue.writeIndex) :
    endOfBuffer s.memory (ringPointer e.stop) = 0 := by
  subst hes
  have hstop : e.stop = s.queue.writeIndex := (h.layout.segment_of_lt hlt).tiled.2.2
  by_contra hflag
  rw [hstop] at hflag
  exact hl ⟨h.count, hlt, hflag⟩

/-- One clean of a ring: nothing is changed, or the oldest entry is gone. -/
theorem Ring.clean {result : MemoryQueueResult} (h : Ring s (live past s))
    (index : SafeIndex s (live past s)) (hclear : Removes s time → ¬ Leftover s)
    (call : memoryQueueClean s time = .ok (result, s')) :
    (¬ Removes s time ∧ result ≠ .success ∧ s' = s) ∨
      (Removes s time ∧ result = .success ∧ ∃ e es, live past s = e :: es ∧
        s' = CacheServer.evict s e ∧ live past s' = es ∧ Ring s' es) := by
  generalize hlive : live past s = xs at h index
  cases xs with
  | nil =>
    have hcount : s.queue.entryCount = 0 := h.count
    rw [memoryQueueClean_empty h] at call
    cases call
    exact Or.inl ⟨fun hr => by have := hr.1; omega, by decide, rfl⟩
  | cons e es =>
    rw [memoryQueueClean_ring h] at call
    by_cases hr : Removes s time
    · rw [if_pos hr] at call
      split at call
      · cases call
        have hring : Ring (CacheServer.evict s e) es :=
          h.evict_of_flag index fun hes hlt => Leftover.flag h (hclear hr) hes hlt
        refine Or.inr ⟨hr, rfl, e, es, rfl, rfl, ?_, hring⟩
        have hsuffix := live_suffix past s
        rw [hlive] at hsuffix
        exact live_of_suffix ((List.suffix_cons e es).trans hsuffix) hring.count
      · cases call
    · rw [if_neg hr] at call
      split at call
      · cases call
        exact Or.inl ⟨hr, by decide, rfl⟩
      · cases call
        exact Or.inl ⟨hr, by decide, rfl⟩

/-- The live entries form a ring in every state of a run. -/
theorem AllocatorRun.ring (run : AllocatorRun capacity Fits past s)
    (hfits : ∀ k v, Fits k v → entryHeaderSize + k + v < 2 ^ 32) (hcap : capacity < 2 ^ 64) :
    Ring s (live past s) ∧ s.queue.capacityBytes = capacity := by
  induction run with
  | opened memory hashmap =>
    exact ⟨(QueueInvariant.opened memory hashmap hcap).ring, rfl⟩
  | touched hashmap run change ih =>
    obtain ⟨hring, hcapacity⟩ := ih
    exact ⟨⟨change.layout hring.layout, hring.count, hring.bytes, hring.inside, hring.write_le,
      hring.capacity_lt⟩, hcapacity⟩
  | @allocated past s s' k v expiry entryHeader p result run key value fits index call ih =>
    obtain ⟨hring, hcapacity⟩ := ih
    have hcall := hring.allocate index k v expiry entryHeader
    rw [call] at hcall
    generalize hr : (.ok (result, p, s') : Except Fault _) = r at hcall
    cases hcall with
    | outOfBounds => cases hr
    | outOfMemory =>
      cases hr
      simpa [added] using ⟨hring, hcapacity⟩
    | @writeBlocked e es s₁ pointer holds overrun locked =>
      cases hr
      have hlive : live (past ++ added k v .writeBlocked (some pointer)) (unpublish s₁ e) = e :: es := by
        simpa [added] using holds.live_blocked
      rw [hlive, unpublish_queue, holds.capacity]
      exact ⟨holds.ring.unpublish holds.safe, hcapacity⟩
    | @success es s₁ holds room hend start =>
      cases hr
      have hplaced := holds.ring.place key value (hfits k v fits) room hend expiry
      have hlive := holds.live_placed hplaced
      exact ⟨hlive ▸ hplaced, holds.capacity.trans hcapacity⟩
  | cleaned run index clear call ih =>
    obtain ⟨hring, hcapacity⟩ := ih
    rcases hring.clean index clear call with ⟨-, -, rfl⟩ | ⟨-, -, e, es, -, rfl, hlive, hring'⟩
    · exact ⟨hring, hcapacity⟩
    · rw [hlive]
      exact ⟨hring', hcapacity⟩

/-! ### Accesses to headers -/

theorem memoryQueueAllocate_large (hlarge : s.queue.capacityBytes < totalSize k v) (expiry : Nat)
    (p : Option Pointer) : memoryQueueAllocate s k v expiry p = .ok (.outOfMemory, p, s) := by
  rw [memoryQueueAllocate]
  exact if_pos hlarge

/- Where no header fits at write_index, the ring has not wrapped and nothing is evicted before
the marker is written there. -/
theorem memoryQueueAllocate_narrow (h : Ring s es) (hsize : totalSize k v ≤ s.queue.capacityBytes)
    (hnarrow : s.queue.capacityBytes < s.queue.writeIndex + entryHeaderSize) (expiry : Nat)
    (p : Option Pointer) : memoryQueueAllocate s k v expiry p = .error .outOfBounds := by
  have hahead : aheadOfWrite s.queue = false := by
    cases es with
    | nil =>
      have hidx := h.layout.indexes_of_nil
      simp only [aheadOfWrite, decide_eq_false_iff_not]
      omega
    | cons e es =>
      by_contra hne
      have hlt : s.queue.writeIndex < s.queue.readIndex := by simpa [aheadOfWrite] using hne
      have hread := h.readIndex_eq
      have hinside := h.inside e (List.mem_cons_self ..)
      have hle := e.header_le
      obtain ⟨upper, lower, marker, -, -, -, -, low, gap⟩ := h.layout.upper_of_le hlt.le
      unfold entryHeaderSize at hnarrow gap
      by_cases hlow : lower = []
      · subst hlow
        have hzero : 0 = s.queue.writeIndex := low.tiled
        omega
      · have := gap hlow
        omega
  have hwraps : s.queue.writeIndex + totalSize k v + entryHeaderSize ≥ s.queue.capacityBytes := by
    omega
  rw [memoryQueueAllocate]
  simp only [if_neg (Nat.not_lt.mpr hsize), if_pos hwraps, cleanWhile, hahead, Bool.false_eq_true,
    if_false, ne_eq, not_true_eq_false]
  rw [accessHeader, if_neg]
  change ¬ s.queue.writeIndex + entryHeaderSize ≤ _
  omega

theorem Ring.allocate_inside_iff (h : Ring s es) (index : SafeIndex s es) (expiry : Nat)
    (p : Option Pointer) : memoryQueueAllocate s k v expiry p ≠ .error .outOfBounds ↔
      s.queue.capacityBytes < totalSize k v ∨
        s.queue.writeIndex + entryHeaderSize ≤ s.queue.capacityBytes := by
  by_cases hlarge : s.queue.capacityBytes < totalSize k v
  · rw [memoryQueueAllocate_large hlarge]
    exact ⟨fun _ => Or.inl hlarge, fun _ he => by cases he⟩
  · by_cases hroom : s.queue.writeIndex + entryHeaderSize ≤ s.queue.capacityBytes
    · refine ⟨fun _ => Or.inr hroom, fun _ => ?_⟩
      have hcall := h.allocate index k v expiry p
      generalize memoryQueueAllocate s k v expiry p = r at hcall
      cases hcall with
      | outOfBounds narrow => omega
      | outOfMemory | writeBlocked | success =>
        intro he
        cases he
    · rw [memoryQueueAllocate_narrow h (by omega) (by omega)]
      exact ⟨fun hne => absurd rfl hne, fun hor => by omega⟩

theorem Ring.clean_inside_iff (h : Ring s es) (time : Nat) :
    memoryQueueClean s time ≠ .error .outOfBounds ↔ (Removes s time → s.queue.entryCount = 1 →
      s.queue.writeIndex + entryHeaderSize ≤ s.queue.capacityBytes) := by
  cases es with
  | nil =>
    have hcount : s.queue.entryCount = 0 := h.count
    rw [memoryQueueClean_empty h]
    exact ⟨fun _ _ hone => by omega, fun _ he => by cases he⟩
  | cons e es =>
    rw [memoryQueueClean_ring h]
    have hiff := h.next_inside_iff
    by_cases hr : Removes s time
    · rw [if_pos hr]
      by_cases hin : e.stop + entryHeaderSize ≤ s.queue.capacityBytes
      · rw [if_pos hin]
        exact ⟨fun _ _ => hiff.mp hin, fun _ he => by cases he⟩
      · rw [if_neg hin]
        exact ⟨fun hne => absurd rfl hne, fun hall => absurd (hiff.mpr (hall hr)) hin⟩
    · rw [if_neg hr]
      refine ⟨fun _ hr' => absurd hr' hr, fun _ => ?_⟩
      split
      · exact fun he => by cases he
      · exact fun he => by cases he

/-- In any run: an allocation that is admitted stays inside the buffer exactly if a header fits
at write_index, and so does a clean that removes the last entry. -/
theorem memoryQueue_inBounds_iff (hcap : capacity < 2 ^ 64)
    (run : AllocatorRun capacity (fun k v => entryHeaderSize + k + v < 2 ^ 32) past s)
    (index : SafeIndex s (live past s)) :
    (∀ k v expiry p, k < 2 ^ 16 → v < 2 ^ 32 → entryHeaderSize + k + v < 2 ^ 32 →
      (memoryQueueAllocate s k v expiry p ≠ .error .outOfBounds ↔
        capacity < entryHeaderSize + k + v ∨ s.queue.writeIndex + entryHeaderSize ≤ capacity)) ∧
    ∀ time, memoryQueueClean s time ≠ .error .outOfBounds ↔
      (Removes s time → s.queue.entryCount = 1 →
        s.queue.writeIndex + entryHeaderSize ≤ capacity) := by
  obtain ⟨hring, hcapacity⟩ := run.ring (fun _ _ hfits => hfits) hcap
  refine ⟨fun k v expiry p _ _ hfits => ?_, fun time => ?_⟩
  · have hiff := hring.allocate_inside_iff (k := k) (v := v) index expiry p
    rwa [totalSize_eq hfits, hcapacity] at hiff
  · have hiff := hring.clean_inside_iff time
    rwa [hcapacity] at hiff

end

/- The ring of 64 bytes with one entry of 20, and with one of 60. -/
theorem memoryQueue_inBounds_one_entry : ∃ past s,
    AllocatorRun 64 (fun k v => entryHeaderSize + k + v < 2 ^ 32) past s ∧ past.length = 1 ∧
      memoryQueueAllocate s 1 3 0 none ≠ .error .outOfBounds ∧
      memoryQueueAllocate s 0 60 0 none ≠ .error .outOfBounds ∧
      memoryQueueClean s 0 ≠ .error .outOfBounds := by
  have hrun := @AllocatorRun.allocated 64 (fun k v => entryHeaderSize + k + v < 2 ^ 32) [] _ _ 1 3 0
    none _ .success (.opened (fun _ _ => 0) ⟨fun _ => 0, []⟩) (by decide) (by decide) (by decide)
    (Or.inr fun item hitem => by cases hitem) rfl
  have hiff := memoryQueue_inBounds_iff (by decide) hrun (Or.inr fun item hitem => by cases hitem)
  exact ⟨_, _, hrun, rfl,
    (hiff.1 1 3 0 none (by decide) (by decide) (by decide)).mpr (Or.inr (by decide)),
    (hiff.1 0 60 0 none (by decide) (by decide) (by decide)).mpr (Or.inl (by decide)),
    (hiff.2 0).mpr fun _ _ => by decide⟩

theorem header_past_end : ∃ past s,
    AllocatorRun 64 (fun k v => entryHeaderSize + k + v < 2 ^ 32) past s ∧
      memoryQueueAllocate s 0 0 0 none = .error .outOfBounds ∧
      memoryQueueClean s 0 = .error .outOfBounds := by
  have hrun := @AllocatorRun.allocated 64 (fun k v => entryHeaderSize + k + v < 2 ^ 32) [] _ _ 4 40 0
    none _ .success (.opened (fun _ _ => 0) ⟨fun _ => 0, []⟩) (by decide) (by decide) (by decide)
    (Or.inr fun item hitem => by cases hitem) rfl
  exact ⟨_, _, hrun, rfl, rfl⟩

end CacheServer
