import CacheServer.Ring.CleanRuns

/-!
# Cleaning the oldest entry

`memory_queue_clean` does what it should in every state of a run, whatever the
unused bytes of the buffer are, except where it removes the last entry in front
of bytes that look like a marker.
-/

namespace CacheServer
open EntryHeader

/-- What is left of a store after its oldest entry `e` is removed, with `es` behind it. -/
structure Cleaned (s : Store) (e : Slot) (es : List Slot) (s' : Store) : Prop where
  wellLaid : WellLaid s' es
  count : s'.queue.entryCount + 1 = s.queue.entryCount
  occupied : s'.queue.occupiedBytes + e.size = s.queue.occupiedBytes
  read : s'.queue.readIndex = (es.head?.map Slot.offset).getD s'.queue.writeIndex
  write : s'.queue.writeIndex = s.queue.writeIndex
  kept : ∀ x ∈ es, ∀ a, x.offset < a → a < x.stop → s'.memory .ring a = s.memory .ring a

def CleansOldest (past : List Slot) (s : Store) (time : Nat) : Prop :=
  ∃ result s', memoryQueueClean s time = .ok (result, s') ∧
    (result = .success ↔ ∃ e, (live past s).head? = some e ∧ locks s.memory e.pointer = 0 ∧
      (active s.memory e.pointer = 0 ∨ expiry s.memory e.pointer ≤ time)) ∧
    (result ≠ .success → s' = s) ∧
    (result = .success → ∃ e es, live past s = e :: es ∧ live past s' = es ∧ Cleaned s e es s')

section
variable {capacity time : Nat} {past es : List Slot} {s s' : Store} {e : Slot}

theorem AllocatorRun.invariant
    (run : AllocatorRun capacity (fun k v => entryHeaderSize + k + v + entryHeaderSize ≤ capacity) past s)
    (hcap : capacity < 2 ^ 32) : QueueInvariant capacity past s := by
  induction run with
  | opened memory hashmap => exact .opened memory hashmap (by omega)
  | touched hashmap run change ih => exact ih.touched hashmap change
  | @allocated past s s' k v expiry entryHeader p result run key value fits index call ih =>
    obtain ⟨result', p', s'', gone, rest, hcall, _, hinv⟩ :=
      ih.allocate hcap key value fits index expiry entryHeader
    rw [call] at hcall
    cases hcall
    exact hinv
  | cleaned run index clear call ih =>
    rcases ih.ring.clean index clear call with ⟨-, -, rfl⟩ | ⟨-, -, e, es, -, rfl, hlive, hring⟩
    · exact ih
    · exact ⟨hlive ▸ hring, ih.capacity_eq, ih.marker⟩

theorem Ring.cleaned (h : Ring s (e :: es)) (index : SafeIndex s (e :: es))
    (h' : Ring (CacheServer.evict s e) es) : Cleaned s e es (CacheServer.evict s e) where
  wellLaid := h'.wellLaid
  count := by rw [h.count, h'.count, List.length_cons]
  occupied := by
    rw [h.bytes, h'.bytes, List.map_cons, List.sum_cons]
    omega
  read := by
    cases es with
    | nil => exact h'.layout.indexes_of_nil
    | cons x xs => exact h'.readIndex_eq
  write := rfl
  kept x hx a h1 h2 := by
    rw [evict_memory]
    exact retract_inside index hx h1 h2

/-- The clean removes the entry at read_index exactly if the oldest entry may go. -/
theorem Ring.removes_oldest (h : Ring s es) (time : Nat) : Removes s time ↔
    ∃ e, es.head? = some e ∧ locks s.memory e.pointer = 0 ∧
      (active s.memory e.pointer = 0 ∨ expiry s.memory e.pointer ≤ time) := by
  cases es with
  | nil =>
    have hcount : s.queue.entryCount = 0 := h.count
    constructor
    · intro hr
      have := hr.1
      omega
    · rintro ⟨e, he, -⟩
      cases he
  | cons e es =>
    rw [removes_iff h]
    constructor
    · intro hr
      exact ⟨e, rfl, hr.2, hr.1⟩
    · rintro ⟨e', he, hl, hold⟩
      cases he
      exact ⟨hold, hl⟩

theorem QueueInvariant.clean_returns (h : QueueInvariant capacity past s) (time : Nat) :
    ∃ result s', memoryQueueClean s time = .ok (result, s') := by
  have hring := h.ring
  generalize live past s = es at hring
  cases es with
  | nil => exact ⟨_, _, memoryQueueClean_empty hring⟩
  | cons e es =>
    have hinside := hring.inside e (List.mem_cons_self ..)
    have hle := e.header_le
    have hmarker := h.marker
    have hcapacity := h.capacity_eq
    have hnext : e.stop + entryHeaderSize ≤ s.queue.capacityBytes := by
      rw [hring.next_inside_iff]
      unfold entryHeaderSize at hmarker ⊢
      omega
    rw [memoryQueueClean_ring hring, if_pos hnext]
    split
    · exact ⟨_, _, rfl⟩
    · split
      · exact ⟨_, _, rfl⟩
      · exact ⟨_, _, rfl⟩

theorem QueueInvariant.cleans (h : QueueInvariant capacity past s)
    (index : SafeIndex s (live past s)) (hclear : Removes s time → ¬ Leftover s) :
    CleansOldest past s time := by
  obtain ⟨result, s', hcall⟩ := h.clean_returns time
  have hoves := h.ring.removes_oldest time
  refine ⟨result, s', hcall, ?_⟩
  rcases h.ring.clean index hclear hcall with
    ⟨hr, hne, rfl⟩ | ⟨hr, rfl, e, es, hlive, rfl, hlive', hring'⟩
  · exact ⟨⟨fun he => absurd he hne, fun hold => absurd (hoves.mpr hold) hr⟩, fun _ => rfl,
      fun he => absurd he hne⟩
  · have hring := h.ring
    rw [hlive] at hring index
    exact ⟨⟨fun _ => hoves.mp hr, fun _ => rfl⟩, fun hne => absurd rfl hne,
      fun _ => ⟨e, es, hlive, hlive', hring.cleaned index hring'⟩⟩

/-- A marker that is none sends read_index to 0, while write_index is behind the entry. -/
theorem QueueInvariant.not_cleans (h : QueueInvariant capacity past s) (hr : Removes s time)
    (hl : Leftover s) : ¬ CleansOldest past s time := by
  rintro ⟨result, s', hcall, hsuccess, -, hcleaned⟩
  obtain ⟨hone, hlt, hflag⟩ := hl
  obtain ⟨e, es, hlive, -, hafter⟩ := hcleaned (hsuccess.mpr ((h.ring.removes_oldest time).mp hr))
  have hring := h.ring
  rw [hlive] at hring
  have hes : es = [] := by
    have hcount := hring.count
    rw [hone, List.length_cons] at hcount
    exact List.length_eq_zero_iff.mp (by omega)
  subst hes
  have hstop : e.stop = s.queue.writeIndex := (hring.layout.segment_of_lt hlt).tiled.2.2
  rw [memoryQueueClean_ring hring, if_pos hr] at hcall
  split at hcall
  · cases hcall
    have hread := hafter.read
    rw [← hstop] at hflag
    simp only [CacheServer.evict, if_pos hflag, List.head?_nil, Option.map_none,
      Option.getD_none] at hread
    omega
  · cases hcall

/-- In any run: the clean removes exactly the oldest entry, and the queue stays whole, if and only
if it does not remove the last entry in front of left over bytes that look like a marker. -/
theorem memoryQueueClean_oldest_iff (hcap : capacity < 2 ^ 32)
    (run : AllocatorRun capacity (fun k v => entryHeaderSize + k + v + entryHeaderSize ≤ capacity) past s)
    (index : SafeIndex s (live past s)) (time : Nat) :
    CleansOldest past s time ↔ (Removes s time → ¬ Leftover s) := by
  have hinv := run.invariant hcap
  constructor
  · exact fun hcleans hr hl => hinv.not_cleans hr hl hcleans
  · exact hinv.cleans index

end

/- The first entry of a ring of 64 bytes. -/
theorem memoryQueueClean_oldest_one_entry : ∃ past s,
    AllocatorRun 64 (fun k v => entryHeaderSize + k + v + entryHeaderSize ≤ 64) past s ∧
      past.length = 1 ∧ CleansOldest past s 0 := by
  have hrun := @AllocatorRun.allocated 64 (fun k v => entryHeaderSize + k + v + entryHeaderSize ≤ 64)
    [] _ _ 1 3 0 none _ .success (.opened (fun _ _ => 0) ⟨fun _ => 0, []⟩) (by decide) (by decide)
    (by decide) (Or.inr fun item hitem => by cases hitem) rfl
  exact ⟨_, _, hrun, rfl, (memoryQueueClean_oldest_iff (by decide) hrun
    (Or.inr fun item hitem => by cases hitem) 0).mpr fun _ => by decide⟩

/- The same on a buffer that malloc left with the byte 2 at offset 20. -/
theorem clean_follows_leftover : ∃ past s s',
    AllocatorRun 64 (fun k v => entryHeaderSize + k + v + entryHeaderSize ≤ 64) past s ∧
      memoryQueueClean s 0 = .ok (.success, s') ∧ s'.queue.entryCount = 0 ∧
      s'.queue.readIndex = 0 ∧ s'.queue.writeIndex = 20 := by
  have hrun := @AllocatorRun.allocated 64 (fun k v => entryHeaderSize + k + v + entryHeaderSize ≤ 64)
    [] _ _ 1 3 0 none _ .success (.opened (fun _ a => if a = 20 then 2 else 0) ⟨fun _ => 0, []⟩)
    (by decide) (by decide) (by decide) (Or.inr fun item hitem => by cases hitem) rfl
  exact ⟨_, _, _, hrun, rfl, rfl, rfl, rfl⟩

end CacheServer
