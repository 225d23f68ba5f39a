import CacheServer.Ring.Eviction

/-!
# Allocating from the ring

The wrap and the placement of a new entry keep the layout. With the rule for the
eviction loops they give the rule for `memory_queue_allocate`.
-/

namespace CacheServer
open EntryHeader

/-- The store after an entry was written at write_index. -/
def place (s : Store) (keySize valueSize expiry : Nat) : Store :=
  { s with
    memory := writeHeader s.memory (ringPointer s.queue.writeIndex) keySize valueSize expiry
    queue := { s.queue with
      entryCount := s.queue.entryCount + 1
      writeIndex := s.queue.writeIndex + totalSize keySize valueSize
      occupiedBytes := s.queue.occupiedBytes + totalSize keySize valueSize } }

/-- An entry of this size does not fit between write_index and the end of the buffer. -/
def wraps (q : MemoryQueueContext) (size : Nat) : Prop :=
  q.capacityBytes ≤ q.writeIndex + size + entryHeaderSize

instance (q : MemoryQueueContext) (size : Nat) : Decidable (wraps q size) :=
  inferInstanceAs (Decidable (_ ≤ _))

/-- What an allocation of `size` bytes has to remove, by the offset of the entry. -/
def overruns (q : MemoryQueueContext) (size offset : Nat) : Prop :=
  if wraps q size then q.writeIndex < offset ∨ offset ≤ size + entryHeaderSize
  else q.writeIndex ≤ offset ∧ offset ≤ q.writeIndex + size + entryHeaderSize

instance (q : MemoryQueueContext) (size offset : Nat) : Decidable (overruns q size offset) :=
  inferInstanceAs (Decidable (if wraps q size
    then q.writeIndex < offset ∨ offset ≤ size + entryHeaderSize
    else q.writeIndex ≤ offset ∧ offset ≤ q.writeIndex + size + entryHeaderSize))

/-! ### The wrap -/

section
variable {s : Store} {es : List Slot}

theorem Segment.setEndOfBuffer {m : Memory} {p q a : Nat} (h : Segment m p es q) (v : Nat)
    (ha : q ≤ a ∨ a = p) : Segment (setEndOfBuffer m (ringPointer a) v) p es q := by
  refine h.congr (fun e he b h1 h2 => ?_) fun e he hq => ?_
  · have hb := h.tiled.mem_bounds he
    have hle := e.header_le
    refine setEndOfBuffer_outside m _ v (Or.inr ?_)
    change b ≠ a
    omega
  · have hb := h.tiled.mem_bounds he
    refine endOfBuffer_setEndOfBuffer_of_ne m _ _ v fun hp => ?_
    have hs : e.stop = a := congrArg Pointer.offset hp
    omega

theorem RingLayout.wrap {m : Memory} {capacity r w : Nat} (h : RingLayout m capacity r w es)
    (hr : r ≤ w) (hc : w + entryHeaderSize ≤ capacity) :
    RingLayout (setEndOfBuffer m (ringPointer w) 1) capacity (if r = w then 0 else r) 0 es := by
  cases h with
  | linear all =>
    by_cases hrw : r = w
    · obtain rfl := all.tiled.eq_nil_of_eq hrw
      rw [if_pos hrw]
      exact .linear ⟨rfl, by simp, by simp⟩
    · rw [if_neg hrw, ← List.append_nil es]
      refine .wrapped ?_ (all.setEndOfBuffer 1 (Or.inl le_rfl))
        (endOfBuffer_setEndOfBuffer m (ringPointer w) 1) hc ⟨rfl, by simp, by simp⟩ (by simp)
      rintro rfl
      exact hrw all.tiled
  | wrapped nonempty high marked inside low gap =>
    -- a second wrap with nothing written since the first: both indexes are 0
    rename_i upper lower marker
    have hlow : lower = [] := by
      by_contra hl
      have := gap hl
      omega
    subst hlow
    have hw : w = 0 := Eq.symm low.tiled
    have hr0 : r = 0 := by omega
    have hlt := high.tiled.lt_of_ne_nil nonempty
    subst hw hr0
    rw [if_pos rfl]
    refine .wrapped nonempty (high.setEndOfBuffer 1 (Or.inr rfl)) ?_ inside
      ⟨rfl, by simp, by simp⟩ (by simp)
    rw [endOfBuffer_setEndOfBuffer_of_ne _ _ _ _ fun hp => by
      have : marker = 0 := congrArg Pointer.offset hp
      omega]
    exact marked

theorem Ring.wrap (h : Ring s es) (hr : aheadOfWrite s.queue = false)
    (hc : s.queue.writeIndex + entryHeaderSize ≤ s.queue.capacityBytes) : Ring (wrapQueue s) es where
  layout := h.layout.wrap (by simpa [aheadOfWrite] using hr) hc
  count := h.count
  bytes := h.bytes
  inside := h.inside
  write_le := Nat.zero_le _
  capacity_lt := h.capacity_lt

/-! ### The new entry -/

/- The header is written behind the entries of the segment, or wholly before them. -/
theorem Segment.writeHeader {m : Memory} {p q a k v expiry : Nat} (h : Segment m p es q)
    (ha : q ≤ a ∨ a + entryHeaderSize ≤ p) :
    Segment (writeHeader m (ringPointer a) k v expiry) p es q := by
  unfold entryHeaderSize at ha
  refine h.congr (fun e he b h1 h2 => ?_) fun e he hq => ?_
  · have hb := h.tiled.mem_bounds he
    have hle := e.header_le
    refine writeHeader_outside m _ k v expiry (Or.inr ?_)
    change b < a ∨ a + 16 ≤ b
    omega
  · have hb := h.tiled.mem_bounds he
    refine endOfBuffer_congr (writeHeader_outside m _ k v expiry (Or.inr ?_))
    change e.stop < a ∨ a + 16 ≤ e.stop
    omega

variable {k v : Nat}

theorem headerAt_writeHeader (m : Memory) (a expiry : Nat) (hk : k < 2 ^ 16) (hv : v < 2 ^ 32)
    (hfits : entryHeaderSize + k + v < 2 ^ 32) :
    HeaderAt (writeHeader m (ringPointer a) k v expiry) ⟨a, k, v⟩ where
  keySize := (keySize_writeHeader m (ringPointer a) k v expiry).trans (Nat.mod_eq_of_lt hk)
  valueSize := (valueSize_writeHeader m (ringPointer a) k v expiry).trans (Nat.mod_eq_of_lt hv)
  fits := hfits

theorem totalSize_eq (hfits : entryHeaderSize + k + v < 2 ^ 32) :
    totalSize k v = entryHeaderSize + k + v := Nat.mod_eq_of_lt hfits

theorem RingLayout.place {m : Memory} {capacity r w : Nat} (h : RingLayout m capacity r w es)
    (hk : k < 2 ^ 16) (hv : v < 2 ^ 32) (hfits : entryHeaderSize + k + v < 2 ^ 32)
    (hroom : es ≠ [] → w ≤ r → w + (entryHeaderSize + k + v) + entryHeaderSize < r)
    (expiry : Nat) :
    RingLayout (CacheServer.writeHeader m (ringPointer w) k v expiry) capacity r
      (w + (entryHeaderSize + k + v)) (es ++ [⟨w, k, v⟩]) := by
  have hhead := headerAt_writeHeader m w expiry hk hv hfits
  have hflag := endOfBuffer_writeHeader m (ringPointer w) k v expiry
  cases h with
  | linear all =>
    exact .linear ((all.writeHeader (Or.inl le_rfl)).concat (e := ⟨w, k, v⟩) rfl hhead hflag)
  | wrapped nonempty high marked inside low gap =>
    rename_i upper lower marker
    have hw : w ≤ r := by
      by_cases hl : lower = []
      · subst hl
        have : w = 0 := Eq.symm low.tiled
        omega
      · have := gap hl
        omega
    have hfree := hroom (by simp [nonempty]) hw
    have hlt := high.tiled.lt_of_ne_nil nonempty
    rw [List.append_assoc]
    refine .wrapped nonempty (high.writeHeader (Or.inr (by omega))) ?_ inside
      ((low.writeHeader (Or.inl le_rfl)).concat (e := ⟨w, k, v⟩) rfl hhead hflag) fun _ => hfree
    rw [endOfBuffer_congr (writeHeader_outside m _ k v expiry (Or.inr (Or.inr (by
      change w + entryHeaderSize ≤ marker
      omega))))]
    exact marked

theorem Ring.place (h : Ring s es) (hk : k < 2 ^ 16) (hv : v < 2 ^ 32)
    (hfits : entryHeaderSize + k + v < 2 ^ 32)
    (hroom : inTheWay (totalSize k v) s.queue = false)
    (hend : s.queue.writeIndex + totalSize k v ≤ s.queue.capacityBytes) (expiry : Nat) :
    Ring (place s k v expiry) (es ++ [⟨s.queue.writeIndex, k, v⟩]) where
  layout := by
    rw [CacheServer.place, totalSize_eq hfits]
    refine h.layout.place hk hv hfits (fun hne hw => ?_) expiry
    have hcount : 0 < s.queue.entryCount := by
      rw [h.count]
      exact List.length_pos_of_ne_nil hne
    rw [totalSize_eq hfits] at hroom
    by_contra hlt
    have : inTheWay (entryHeaderSize + k + v) s.queue = true := by
      simp only [inTheWay, decide_eq_true_eq]
      omega
    rw [this] at hroom
    exact Bool.noConfusion hroom
  count := by simp [CacheServer.place, h.count]
  bytes := by simp [CacheServer.place, h.bytes, totalSize_eq hfits, Slot.size]
  inside x hx := by
    rcases List.mem_append.mp hx with hx | hx
    · exact h.inside x hx
    · rw [List.mem_singleton.mp hx]
      rw [totalSize_eq hfits] at hend
      exact hend
  write_le := hend
  capacity_lt := h.capacity_lt

/- Placing the entry writes nothing into the others. -/
theorem Ring.place_outside {expiry : Nat} {x : Slot}
    (h : Ring (CacheServer.place s k v expiry) (es ++ [⟨s.queue.writeIndex, k, v⟩])) (hx : x ∈ es)
    {a : Nat} (h1 : x.offset ≤ a) (h2 : a < x.stop) :
    (CacheServer.place s k v expiry).memory .ring a = s.memory .ring a := by
  have hapart : x.Apart ⟨s.queue.writeIndex, k, v⟩ :=
    (List.pairwise_append.mp h.layout.pairwise_apart).2.2 x hx _ (List.mem_singleton.mpr rfl)
  have hle := Slot.header_le ⟨s.queue.writeIndex, k, v⟩
  show writeHeader s.memory (ringPointer s.queue.writeIndex) k v expiry .ring a = s.memory .ring a
  refine writeHeader_outside _ _ _ _ _ (Or.inr ?_)
  show a < s.queue.writeIndex ∨ s.queue.writeIndex + 16 ≤ a
  simp only at hle
  rcases hapart with hb | hb
  · simp only at hb
    omega
  · omega

end

/-! ### memory_queue_allocate -/

/-- The ways in which an allocation ends, from a store that satisfies an invariant `P`. -/
inductive Allocation (P : List Slot → Store → Prop) (s : Store) (keySize valueSize expiry : Nat)
    (entryHeader : Option Pointer) :
    Except Fault (MemoryQueueResult × Option Pointer × Store) → Prop
  | outOfMemory (large : s.queue.capacityBytes < totalSize keySize valueSize) :
      Allocation P s keySize valueSize expiry entryHeader (.ok (.outOfMemory, entryHeader, s))
  | outOfBounds (narrow : s.queue.capacityBytes < s.queue.writeIndex + entryHeaderSize) :
      Allocation P s keySize valueSize expiry entryHeader (.error .outOfBounds)
  | writeBlocked {e : Slot} {es : List Slot} {s' : Store} (pointer : Pointer) (holds : P (e :: es) s')
      (overrun : overruns s.queue (totalSize keySize valueSize) e.offset)
      (locked : locks s'.memory e.pointer ≠ 0) :
      Allocation P s keySize valueSize expiry entryHeader
        (.ok (.writeBlocked, some pointer, unpublish s' e))
  | success {es : List Slot} {s' : Store} (holds : P es s')
      (room : inTheWay (totalSize keySize valueSize) s'.queue = false)
      (fits : s'.queue.writeIndex + totalSize keySize valueSize ≤ s'.queue.capacityBytes)
      (start : s'.queue.writeIndex = if wraps s.queue (totalSize keySize valueSize) then 0
        else s.queue.writeIndex) :
      Allocation P s keySize valueSize expiry entryHeader
        (.ok (.success, some (ringPointer s'.queue.writeIndex), place s' keySize valueSize expiry))

/-- What an invariant has to meet to be carried through an allocation from a queue `q`. -/
structure Carried (q : MemoryQueueContext) (size : Nat) (P : List Slot → Store → Prop) : Prop where
  ring : ∀ es s, P es s → Ring s es
  evict : ∀ e es s, P (e :: es) s → overruns q size e.offset →
    s.queue.writeIndex ≤ s.queue.readIndex → locks s.memory e.pointer = 0 → P es (evict s e)
  wrap : ∀ es s, P es s → wraps q size → aheadOfWrite s.queue = false →
    s.queue.writeIndex + entryHeaderSize ≤ s.queue.capacityBytes → P es (wrapQueue s)

section
variable {s : Store} {es : List Slot} {P : List Slot → Store → Prop} {k v : Nat}

theorem inTheWay_iff {q : MemoryQueueContext} {size : Nat} : inTheWay size q = true ↔
    0 < q.entryCount ∧ q.writeIndex ≤ q.readIndex ∧
      q.readIndex ≤ q.writeIndex + size + entryHeaderSize := by
  simp [inTheWay]

theorem Ring.ne_nil (h : Ring s es) (hcount : 0 < s.queue.entryCount) : es ≠ [] := by
  rintro rfl
  rw [h.count] at hcount
  exact Nat.lt_irrefl 0 hcount

theorem overruns_of_inTheWay {q : MemoryQueueContext} {size : Nat} {e : Slot} (h : Ring s (e :: es))
    (hw : s.queue.writeIndex = if wraps q size then 0 else q.writeIndex)
    (hin : inTheWay size s.queue = true) : overruns q size e.offset := by
  obtain ⟨_, hle, hnear⟩ := inTheWay_iff.mp hin
  rw [h.readIndex_eq] at hle hnear
  unfold overruns
  split <;> rename_i hwraps
  · rw [if_pos hwraps] at hw
    exact Or.inr (by omega)
  · rw [if_neg hwraps] at hw
    omega

/- The second loop and the header, from a store `s₁` whose write_index is settled. -/
theorem allocateAt_rule {s₁ : Store} (hP : Carried s.queue (totalSize k v) P) (hs : P es s₁)
    (expiry : Nat) (p : Option Pointer)
    (hheader : s₁.queue.writeIndex + entryHeaderSize ≤ s.queue.capacityBytes)
    (hcap : s₁.queue.capacityBytes = s.queue.capacityBytes)
    (hstart : s₁.queue.writeIndex = if wraps s.queue (totalSize k v) then 0 else s.queue.writeIndex)
    (hend : s₁.queue.writeIndex + totalSize k v ≤ s.queue.capacityBytes) :
    Allocation P s k v expiry p (allocateAt s₁ (ringPointer s₁.queue.writeIndex) k v expiry) := by
  let Q : List Slot → Store → Prop := fun es s' => P es s' ∧
    s'.queue.writeIndex = s₁.queue.writeIndex ∧ s'.queue.capacityBytes = s₁.queue.capacityBytes
  have hwrapped : ∀ es s', Q es s' → inTheWay (totalSize k v) s'.queue = true →
      es ≠ [] ∧ s'.queue.writeIndex ≤ s'.queue.readIndex := by
    intro es s' hQ hcond
    obtain ⟨hcount, hle, _⟩ := inTheWay_iff.mp hcond
    exact ⟨(hP.ring es s' hQ.1).ne_nil hcount, hle⟩
  have hover : ∀ e es s', Q (e :: es) s' → inTheWay (totalSize k v) s'.queue = true →
      overruns s.queue (totalSize k v) e.offset := fun e es s' hQ hcond =>
    overruns_of_inTheWay (hP.ring _ s' hQ.1) (hQ.2.1.trans hstart) hcond
  have hkept : ∀ e es s', Q (e :: es) s' → inTheWay (totalSize k v) s'.queue = true →
      locks s'.memory e.pointer = 0 → Q es (evict s' e) := fun e es s' hQ hcond hlocks =>
    ⟨hP.evict e es s' hQ.1 (hover e es s' hQ hcond) (hwrapped _ s' hQ hcond).2 hlocks, hQ.2⟩
  have hlen : es.length < s₁.queue.entryCount + 1 := by
    rw [(hP.ring es s₁ hs).count]
    omega
  obtain ⟨rest, s₂, hQ, hloop⟩ := cleanWhile_rule _ Q (fun es s' h => hP.ring es s' h.1) hwrapped
    hkept _ es s₁ ⟨hs, rfl, rfl⟩ hlen
  rw [allocateAt]
  generalize cleanWhile _ _ s₁ = r at hloop
  cases hloop with
  | done hcond =>
    obtain ⟨hrest, hw, hc⟩ := hQ
    have hin : (ringPointer s₁.queue.writeIndex).offset + entryHeaderSize ≤
        s₂.queue.capacityBytes := by
      change s₁.queue.writeIndex + _ ≤ _
      omega
    simp only [ne_eq, not_true_eq_false, if_false, accessHeader_ok _ hin]
    rw [← hw]
    exact .success hrest hcond (by omega) (hw.trans hstart)
  | locked hrest hcond hlocked =>
    subst hrest
    exact .writeBlocked _ hQ.1 (hover _ _ s₂ hQ hcond) hlocked

/-- `memory_queue_allocate`, for the size that it computes. -/
theorem memoryQueueAllocate_rule (hP : Carried s.queue (totalSize k v) P) (hs : P es s)
    (expiry : Nat) (p : Option Pointer) :
    Allocation P s k v expiry p (memoryQueueAllocate s k v expiry p) := by
  rw [memoryQueueAllocate]
  by_cases hlarge : totalSize k v > s.queue.capacityBytes
  · simp only [if_pos hlarge]
    exact .outOfMemory hlarge
  simp only [if_neg hlarge]
  by_cases hwraps : wraps s.queue (totalSize k v)
  swap
  · have hlt := hwraps
    unfold wraps at hlt
    rw [if_neg hlt]
    exact allocateAt_rule hP hs expiry p (by omega) rfl (by rw [if_neg hwraps]) (by omega)
  · have hle := hwraps
    unfold wraps at hle
    rw [if_pos hle]
    let Q : List Slot → Store → Prop := fun es s' => P es s' ∧
      s'.queue.writeIndex = s.queue.writeIndex ∧ s'.queue.capacityBytes = s.queue.capacityBytes
    have hwrapped : ∀ es s', Q es s' → aheadOfWrite s'.queue = true →
        es ≠ [] ∧ s'.queue.writeIndex ≤ s'.queue.readIndex := by
      intro es s' hQ hcond
      have hlt : s'.queue.writeIndex < s'.queue.readIndex := by simpa [aheadOfWrite] using hcond
      refine ⟨?_, hlt.le⟩
      rintro rfl
      have := (hP.ring _ s' hQ.1).layout.indexes_of_nil
      omega
    have hover : ∀ e es s', Q (e :: es) s' → aheadOfWrite s'.queue = true →
        overruns s.queue (totalSize k v) e.offset := by
      intro e es s' hQ hcond
      have hlt : s'.queue.writeIndex < s'.queue.readIndex := by simpa [aheadOfWrite] using hcond
      rw [(hP.ring _ s' hQ.1).readIndex_eq, hQ.2.1] at hlt
      rw [overruns, if_pos hwraps]
      exact Or.inl hlt
    have hkept : ∀ e es s', Q (e :: es) s' → aheadOfWrite s'.queue = true →
        locks s'.memory e.pointer = 0 → Q es (evict s' e) := fun e es s' hQ hcond hlocks =>
      ⟨hP.evict e es s' hQ.1 (hover e es s' hQ hcond) (hwrapped _ s' hQ hcond).2 hlocks, hQ.2⟩
    have hlen : es.length < s.queue.entryCount + 1 := by
      rw [(hP.ring es s hs).count]
      omega
    obtain ⟨rest, s₁, hQ, hloop⟩ := cleanWhile_rule _ Q (fun es s' h => hP.ring es s' h.1) hwrapped
      hkept _ es s ⟨hs, rfl, rfl⟩ hlen
    generalize cleanWhile _ _ s = r at hloop
    cases hloop with
    | locked hrest hcond hlocked =>
      subst hrest
      exact .writeBlocked _ hQ.1 (hover _ _ s₁ hQ hcond) hlocked
    | done hcond =>
      obtain ⟨hrest, hw, hc⟩ := hQ
      simp only [ne_eq, not_true_eq_false, if_false]
      by_cases hin : s.queue.writeIndex + entryHeaderSize ≤ s.queue.capacityBytes
      · have hin' : (ringPointer s.queue.writeIndex).offset + entryHeaderSize ≤
            s₁.queue.capacityBytes := by
          change s.queue.writeIndex + _ ≤ _
          omega
        rw [accessHeader_ok _ hin']
        refine allocateAt_rule hP (hP.wrap _ _ hrest hwraps hcond (by omega)) expiry p ?_ hc ?_ ?_
        · change 0 + _ ≤ _
          omega
        · rw [if_pos hwraps]
          rfl
        · change 0 + _ ≤ _
          omega
      · have hin' : ¬ (ringPointer s.queue.writeIndex).offset + entryHeaderSize ≤
            s₁.queue.capacityBytes := by
          change ¬ s.queue.writeIndex + _ ≤ _
          omega
        rw [accessHeader, if_neg hin']
        exact .outOfBounds (by omega)

end

end CacheServer
