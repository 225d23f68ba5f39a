import CacheServer.Ring.Layout

/-!
# Evicting from the ring

What one `force_clean` does to a ring, and the rule for the two loops that
repeat it. The rule takes the loop invariant as a parameter: the results about
the allocator alone, about allocator and index together, and about the server
each bring their own.
-/

namespace CacheServer
open EntryHeader

/-- No entry of `es` that is evicted sends the index into the inside of another: either
none is active, or the index points at boundaries only. -/
def SafeIndex (s : Store) (es : List Slot) : Prop :=
  (∀ e ∈ es, active s.memory e.pointer = 0) ∨
    ∀ item ∈ s.hashmap.items, item.2.block = .ring → Boundary es item.2.offset

/- The index without the entry, if the entry is active. -/
def retract (s : Store) (e : Slot) : Store :=
  if active s.memory e.pointer ≠ 0 then s.deleteKey e.pointer else s

/- What is left of a store when its oldest entry `e` is evicted. -/
def evict (s : Store) (e : Slot) : Store :=
  { retract s e with queue := { s.queue with
    entryCount := s.queue.entryCount - 1
    readIndex := if endOfBuffer s.memory (ringPointer e.stop) ≠ 0 then 0 else e.stop
    occupiedBytes := sub64 s.queue.occupiedBytes e.size } }

/- A locked entry stays in the ring, but an active one is taken out of the index. -/
def unpublish (s : Store) (e : Slot) : Store :=
  if active s.memory e.pointer ≠ 0 then
    Store.deleteKey { s with memory := setActive s.memory e.pointer 0 } e.pointer
  else s

theorem accessHeader_ok {α : Type} {q : MemoryQueueContext} {p : Pointer} (k : Except Fault α)
    (h : p.offset + entryHeaderSize ≤ q.capacityBytes) : accessHeader q p k = k := by
  rw [accessHeader, if_pos h]

theorem deleteKey_memory (s : Store) (p : Pointer) :
    (s.deleteKey p).memory = s.memory ∨
      ∃ item ∈ s.hashmap.items, (s.deleteKey p).memory = setActive s.memory item.2 0 := by
  cases hf : s.hashmap.items.find? (s.hashmap.found s.memory p) with
  | none => exact Or.inl (by simp [Store.deleteKey, entryHashMapDelete, Hashmap.delete, hf])
  | some item =>
    refine Or.inr ⟨item, List.mem_of_find?_eq_some hf, ?_⟩
    simp [Store.deleteKey, entryHashMapDelete, Hashmap.delete, hf]

theorem deleteKey_hashmap (s : Store) (p : Pointer) : (s.deleteKey p).hashmap =
    { s.hashmap with items := s.hashmap.items.eraseP (s.hashmap.found s.memory p) } := by
  cases hf : s.hashmap.items.find? (s.hashmap.found s.memory p) <;>
    simp [Store.deleteKey, entryHashMapDelete, Hashmap.delete, hf]

theorem deleteKey_items (s : Store) (p : Pointer) :
    ∀ item ∈ (s.deleteKey p).hashmap.items, item ∈ s.hashmap.items := by
  intro item hitem
  rw [deleteKey_hashmap] at hitem
  exact List.mem_of_mem_eraseP hitem

@[simp] theorem endOfBuffer_deleteKey (s : Store) (p q : Pointer) :
    endOfBuffer (s.deleteKey p).memory q = endOfBuffer s.memory q := by
  rcases deleteKey_memory s p with h | ⟨item, _, h⟩ <;> simp [h]

@[simp] theorem unpublish_queue (s : Store) (e : Slot) : (unpublish s e).queue = s.queue := by
  unfold unpublish
  split <;> rfl

theorem evict_memory (s : Store) (e : Slot) : (evict s e).memory = (retract s e).memory := rfl

theorem evict_hashmap (s : Store) (e : Slot) : (evict s e).hashmap = (retract s e).hashmap := rfl

/-! ### force_clean on a ring -/

section
variable {s : Store} {e : Slot} {es : List Slot}

theorem Ring.header (h : Ring s (e :: es)) : HeaderAt s.memory e :=
  h.layout.header (List.mem_cons_self ..)

theorem totalSize_header {m : Memory} (h : HeaderAt m e) :
    totalSize (keySize m e.pointer) (valueSize m e.pointer) = e.size := by
  rw [h.keySize, h.valueSize]
  exact Nat.mod_eq_of_lt h.fits

theorem Ring.readIndex_eq (h : Ring s (e :: es)) : s.queue.readIndex = e.offset := by
  generalize hxs : e :: es = xs at h
  cases h.layout with
  | linear all =>
    subst hxs
    exact all.tiled.1.symm
  | wrapped nonempty high marked inside low gap =>
    rename_i upper lower marker
    cases upper with
    | nil => exact absurd rfl nonempty
    | cons y ys =>
      obtain ⟨rfl, _⟩ := List.cons.inj hxs
      exact high.tiled.1.symm

/-- The header behind the entry is inspected only once the entry is given up. -/
theorem removeEntry_ring (h : Ring s (e :: es)) : removeEntry s e.pointer =
    if locks s.memory e.pointer ≠ 0 then .ok (.writeBlocked, s)
    else if e.stop + entryHeaderSize ≤ s.queue.capacityBytes then .ok (.success, evict s e)
    else .error .outOfBounds := by
  have hinside := h.inside e (List.mem_cons_self ..)
  have hle := e.header_le
  have hsize := totalSize_header h.header
  have hnext : s.queue.readIndex + e.size = e.stop := by rw [h.readIndex_eq]; rfl
  have hin : e.pointer.offset + entryHeaderSize ≤ s.queue.capacityBytes := by
    change e.offset + 16 ≤ _
    omega
  rw [removeEntry_total, accessHeader_ok _ hin]
  simp only [hsize, hnext]
  by_cases hl : locks s.memory e.pointer ≠ 0
  · rw [if_pos hl, if_pos hl]
  · rw [if_neg hl, if_neg hl]
    by_cases hin' : e.stop + entryHeaderSize ≤ s.queue.capacityBytes
    · rw [if_pos hin', accessHeader_ok _ (by split <;> exact hin')]
      by_cases ha : active s.memory e.pointer ≠ 0
      · simp only [if_pos ha, endOfBuffer_deleteKey, evict, retract]
        split <;> rfl
      · simp only [if_neg ha, evict, retract]
        split <;> rfl
    · rw [if_neg hin', accessHeader, if_neg (by split <;> exact hin')]

theorem removeEntry_eq (h : Ring s (e :: es)) (hw : s.queue.writeIndex ≤ s.queue.readIndex) :
    removeEntry s e.pointer =
      if locks s.memory e.pointer ≠ 0 then .ok (.writeBlocked, s) else .ok (.success, evict s e) := by
  obtain ⟨upper, lower, marker, _, high, _, hinside, _, _⟩ := h.layout.upper_of_le hw
  have hstop := (high.tiled.mem_bounds (List.mem_cons_self ..)).2.2
  rw [removeEntry_ring h, if_pos (show e.stop + entryHeaderSize ≤ _ by omega)]

theorem forceClean_eq (h : Ring s (e :: es)) (hw : s.queue.writeIndex ≤ s.queue.readIndex) :
    forceClean s =
      if locks s.memory e.pointer ≠ 0 then .ok (.writeBlocked, unpublish s e)
      else .ok (.success, evict s e) := by
  have hcount : s.queue.entryCount > 0 := by
    rw [h.count]
    simp
  have hp : ringPointer s.queue.readIndex = e.pointer := by rw [h.readIndex_eq]; rfl
  rw [forceClean_total, if_pos hcount]
  simp only [hp, removeEntry_eq h hw]
  by_cases hl : locks s.memory e.pointer ≠ 0
  · simp only [if_pos hl, true_and]
    unfold unpublish
    split <;> rfl
  · simp [hl]

/- Only the entries that stay matter: the index must not lead into them. -/
theorem retract_layout {r w : Nat} (hs : SafeIndex s (e :: es))
    (h : RingLayout s.memory s.queue.capacityBytes r w es) :
    RingLayout (retract s e).memory s.queue.capacityBytes r w es := by
  unfold retract
  split
  · rename_i ha
    rcases hs with hs | hs
    · exact absurd (hs e (List.mem_cons_self ..)) ha
    · rcases deleteKey_memory s e.pointer with hm | ⟨item, hitem, hm⟩
      · rw [hm]
        exact h
      · rw [hm]
        exact h.setActive item.2 0 fun hb x hx => hs item hitem hb x (List.mem_cons_of_mem _ hx)
  · exact h

theorem unpublish_layout {r w : Nat} (hs : SafeIndex s (e :: es))
    (h : RingLayout s.memory s.queue.capacityBytes r w (e :: es)) :
    RingLayout (unpublish s e).memory s.queue.capacityBytes r w (e :: es) := by
  unfold unpublish
  split
  · rename_i ha
    rcases hs with hs | hs
    · exact absurd (hs e (List.mem_cons_self ..)) ha
    · have h1 := h.setActive e.pointer 0 fun _ => h.boundary (List.mem_cons_self ..)
      rcases deleteKey_memory { s with memory := setActive s.memory e.pointer 0 } e.pointer with
        hm | ⟨item, hitem, hm⟩
      · rw [hm]
        exact h1
      · rw [hm]
        exact h1.setActive item.2 0 (hs item hitem)
  · exact h

/- The walk goes on at the end of the entry, unless a marker is found there. Where no entry
follows, only the memory behind the last one tells. -/
theorem RingLayout.evicted {m : Memory} {capacity r w : Nat}
    (h : RingLayout m capacity r w (e :: es))
    (hflag : es = [] → r < w → endOfBuffer m (ringPointer e.stop) = 0) :
    RingLayout m capacity (if endOfBuffer m (ringPointer e.stop) ≠ 0 then 0 else e.stop) w es := by
  by_cases hw : w ≤ r
  · obtain ⟨upper, lower, marker, rfl, high, marked, hinside, low, gap⟩ := h.upper_of_le hw
    have ho : e.offset = r := high.tiled.1
    have hle := e.header_le
    cases upper with
    | nil =>
      have hstop : e.stop = marker := high.tiled.2.2
      rw [hstop, marked, if_pos (by decide)]
      exact .linear low
    | cons x xs =>
      have hlt := high.tail.tiled.lt_of_ne_nil (by simp)
      have hinner := high.inner e (List.mem_cons_self ..) (by omega)
      rw [hinner, if_neg (by decide)]
      refine .wrapped (by simp) high.tail marked hinside low fun hl => ?_
      have := gap hl
      omega
  · have all := h.segment_of_lt (by omega)
    have hzero : endOfBuffer m (ringPointer e.stop) = 0 := by
      by_cases hes : es = []
      · exact hflag hes (by omega)
      · have hlt := all.tail.tiled.lt_of_ne_nil hes
        exact all.inner e (List.mem_cons_self ..) (by omega)
    rw [hzero, if_neg (by decide)]
    exact .linear all.tail

theorem Ring.evict_of_flag (h : Ring s (e :: es)) (hs : SafeIndex s (e :: es))
    (hflag : es = [] → s.queue.readIndex < s.queue.writeIndex →
      endOfBuffer s.memory (ringPointer e.stop) = 0) : Ring (evict s e) es where
  layout := retract_layout hs (h.layout.evicted hflag)
  count := by
    have := h.count
    simp only [CacheServer.evict, List.length_cons] at this ⊢
    omega
  bytes := by
    have hb := h.bytes
    have hle := h.sum_le
    have hc := h.capacity_lt
    simp only [List.map_cons, List.sum_cons] at hb hle
    simp only [CacheServer.evict, hb, sub64]
    omega
  inside x hx := h.inside x (List.mem_cons_of_mem _ hx)
  write_le := h.write_le
  capacity_lt := h.capacity_lt

theorem Ring.evict (h : Ring s (e :: es)) (hs : SafeIndex s (e :: es))
    (hw : s.queue.writeIndex ≤ s.queue.readIndex) : Ring (evict s e) es :=
  h.evict_of_flag hs fun _ hlt => absurd hw (by omega)

theorem Ring.unpublish (h : Ring s (e :: es)) (hs : SafeIndex s (e :: es)) :
    Ring (unpublish s e) (e :: es) where
  layout := by
    rw [unpublish_queue]
    exact unpublish_layout hs h.layout
  count := by rw [unpublish_queue, h.count]
  bytes := by rw [unpublish_queue, h.bytes]
  inside := by
    rw [unpublish_queue]
    exact h.inside
  write_le := by
    rw [unpublish_queue]
    exact h.write_le
  capacity_lt := by
    rw [unpublish_queue]
    exact h.capacity_lt

end

/-! ### The loops -/

/-- A loop stops with its condition false, or at a locked entry with its condition true. -/
inductive LoopEnd (cond : MemoryQueueContext → Bool) (rest : List Slot) (s : Store) :
    Except Fault (MemoryQueueResult × Store) → Prop
  | done (hcond : cond s.queue = false) : LoopEnd cond rest s (.ok (.success, s))
  | locked {e : Slot} {es : List Slot} (hrest : rest = e :: es) (hcond : cond s.queue = true)
      (hlocked : locks s.memory e.pointer ≠ 0) :
      LoopEnd cond rest s (.ok (.writeBlocked, unpublish s e))

/-- The rule for the eviction loops: an invariant `P` that implies `Ring`, under which a
true condition leaves an entry to evict, and which each eviction keeps. The loop ends,
and within `entry_count + 1` rounds, since each round takes one entry off the list. -/
theorem cleanWhile_rule (cond : MemoryQueueContext → Bool) (P : List Slot → Store → Prop)
    (ring : ∀ es s, P es s → Ring s es)
    (wrapped : ∀ es s, P es s → cond s.queue = true →
      es ≠ [] ∧ s.queue.writeIndex ≤ s.queue.readIndex)
    (kept : ∀ e es s, P (e :: es) s → cond s.queue = true → locks s.memory e.pointer = 0 →
      P es (evict s e)) :
    ∀ (fuel : Nat) (es : List Slot) (s : Store), P es s → es.length < fuel →
      ∃ rest s', P rest s' ∧ LoopEnd cond rest s' (cleanWhile cond fuel s) := by
  intro fuel
  induction fuel with
  | zero => intro es s _ hlen; omega
  | succ fuel ih =>
    intro es s hP hlen
    rw [cleanWhile]
    cases hc : cond s.queue with
    | false => exact ⟨es, s, hP, .done hc⟩
    | true =>
      obtain ⟨hne, hw⟩ := wrapped es s hP hc
      cases es with
      | nil => exact absurd rfl hne
      | cons e es =>
        rw [if_pos rfl, forceClean_eq (ring _ s hP) hw]
        by_cases hl : locks s.memory e.pointer ≠ 0
        · rw [if_pos hl]
          exact ⟨e :: es, s, hP, .locked rfl hc hl⟩
        · rw [if_neg hl]
          have hP' := kept e es s hP hc (by omega)
          simp only [List.length_cons] at hlen
          obtain ⟨rest, s', hrest, hend⟩ := ih es (evict s e) hP' (by omega)
          exact ⟨rest, s', hrest, hend⟩

end CacheServer
