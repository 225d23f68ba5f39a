import CacheServer.Ring.CleanRuns

/-!
# Which allocations succeed

An allocation succeeds exactly if its size is at most the capacity, no entry that
it overruns is locked, and a marker fits where it wraps (`Admits`). Where it is
blocked, the pointer that it leaves is the one to write_index.
-/

namespace CacheServer
open EntryHeader

section
variable {s s' : Store} {es rest : List Slot} {e : Slot} {k v expiry size : Nat}
  {p q : Option Pointer} {result : MemoryQueueResult}

/-! ### The loops on any store -/

/-- The ways in which `remove_entry` ends. -/
inductive Removal (s : Store) (entry : Pointer) (size : Nat) :
    Except Fault (MemoryQueueResult × Store) → Prop
  | outOfBounds : Removal s entry size (.error .outOfBounds)
  | writeBlocked (locked : locks s.memory entry ≠ 0) : Removal s entry size (.ok (.writeBlocked, s))
  | success {s' : Store} (unlocked : locks s.memory entry = 0)
      (write : s'.queue.writeIndex = s.queue.writeIndex)
      (capacity : s'.queue.capacityBytes = s.queue.capacityBytes)
      (occupied : s'.queue.occupiedBytes = sub64 s.queue.occupiedBytes size)
      (read : s'.queue.readIndex = s.queue.readIndex + size ∨ s'.queue.readIndex = 0 ∧
        endOfBuffer s'.memory (ringPointer (s.queue.readIndex + size)) ≠ 0) :
      Removal s entry size (.ok (.success, s'))

theorem removeEntry_cases (s : Store) (entry : Pointer) :
    Removal s entry (totalSize (keySize s.memory entry) (valueSize s.memory entry))
      (removeEntry s entry) := by
  rw [removeEntry_total]
  unfold accessHeader
  split
  · simp only
    split
    · rename_i hlocked
      exact .writeBlocked hlocked
    · rename_i hlocks
      have hunlocked : locks s.memory entry = 0 := by simpa using hlocks
      by_cases hactive : active s.memory entry = 0
      · simp only [hactive, ne_eq, not_true_eq_false, if_false]
        split
        · split
          · rename_i hflag
            exact .success hunlocked rfl rfl rfl (Or.inr ⟨rfl, hflag⟩)
          · exact .success hunlocked rfl rfl rfl (Or.inl rfl)
        · exact .outOfBounds
      · simp only [ne_eq, hactive, not_false_eq_true, if_true]
        split
        · split
          · rename_i hflag
            exact .success hunlocked rfl rfl rfl (Or.inr ⟨rfl, hflag⟩)
          · exact .success hunlocked rfl rfl rfl (Or.inl rfl)
        · exact .outOfBounds
  · exact .outOfBounds

theorem removeEntry_frame {entry : Pointer} (h : removeEntry s entry = .ok (result, s')) :
    s'.queue.writeIndex = s.queue.writeIndex ∧ s'.queue.capacityBytes = s.queue.capacityBytes ∧
      (result ≠ .success → s' = s) := by
  have hcases := removeEntry_cases s entry
  rw [h] at hcases
  cases hcases with
  | writeBlocked => exact ⟨rfl, rfl, fun _ => rfl⟩
  | success unlocked write capacity => exact ⟨write, capacity, fun hne => absurd rfl hne⟩

theorem forceClean_frame (h : forceClean s = .ok (result, s')) :
    s'.queue.writeIndex = s.queue.writeIndex ∧ s'.queue.capacityBytes = s.queue.capacityBytes ∧
      (result ≠ .success → s'.queue = s.queue) := by
  rw [forceClean_total] at h
  split at h
  · simp only at h
    cases hremove : removeEntry s (ringPointer s.queue.readIndex) with
    | error fault =>
      rw [hremove] at h
      cases h
    | ok r =>
      obtain ⟨result₁, s₁⟩ := r
      obtain ⟨hwrite, hcapacity, hsame⟩ := removeEntry_frame hremove
      rw [hremove] at h
      simp only at h
      split at h
      · cases h
        refine ⟨hwrite, hcapacity, fun hne => ?_⟩
        show s₁.queue = s.queue
        rw [hsame hne]
      · cases h
        refine ⟨hwrite, hcapacity, fun hne => ?_⟩
        rw [hsame hne]
  · cases h

/-- A loop moves neither write_index nor capacity, and is left early with its condition true. -/
theorem cleanWhile_frame {cond : MemoryQueueContext → Bool} {n : Nat}
    (h : cleanWhile cond n s = .ok (result, s')) :
    s'.queue.writeIndex = s.queue.writeIndex ∧ s'.queue.capacityBytes = s.queue.capacityBytes ∧
      (result ≠ .success → cond s'.queue = true) := by
  induction n generalizing s with
  | zero => cases h
  | succ n ih =>
    rw [cleanWhile] at h
    split at h
    · rename_i hcond
      cases hclean : forceClean s with
      | error fault =>
        rw [hclean] at h
        cases h
      | ok r =>
        obtain ⟨result₁, s₁⟩ := r
        obtain ⟨hwrite, hcapacity, hsame⟩ := forceClean_frame hclean
        rw [hclean] at h
        simp only at h
        split at h
        · rename_i hfailed
          cases h
          exact ⟨hwrite, hcapacity, fun _ => by rw [hsame hfailed]; exact hcond⟩
        · obtain ⟨hwrite', hcapacity', hlast⟩ := ih h
          exact ⟨hwrite'.trans hwrite, hcapacity'.trans hcapacity, hlast⟩
    · cases h
      exact ⟨rfl, rfl, fun hne => absurd rfl hne⟩

/-! ### The pointer of a blocked allocation -/

theorem allocateAt_blocked {entry : Pointer}
    (h : allocateAt s entry k v expiry = .ok (.writeBlocked, p, s')) :
    p = some entry ∧ s'.queue.writeIndex = s.queue.writeIndex ∧
      s'.queue.writeIndex ≤ s'.queue.readIndex := by
  unfold allocateAt at h
  cases hloop : cleanWhile (inTheWay (totalSize k v)) (s.queue.entryCount + 1) s with
  | error fault =>
    simp only [hloop] at h
    cases h
  | ok r =>
    obtain ⟨result₁, s₁⟩ := r
    obtain ⟨hwrite, -, hcond⟩ := cleanWhile_frame hloop
    simp only [hloop] at h
    split at h
    · rename_i hfailed
      cases h
      exact ⟨rfl, hwrite, (inTheWay_iff.mp (hcond hfailed)).2.1⟩
    · unfold accessHeader at h
      split at h <;> cases h

/-- The pointer is never set to the entry that blocks: it stays at write_index. -/
theorem memoryQueueAllocate_blocked
    (h : memoryQueueAllocate s k v expiry q = .ok (.writeBlocked, p, s')) :
    p = some (ringPointer s'.queue.writeIndex) ∧ s'.queue.writeIndex ≤ s'.queue.readIndex := by
  unfold memoryQueueAllocate at h
  simp only at h
  split at h
  · cases h
  · split at h
    · cases hloop : cleanWhile aheadOfWrite (s.queue.entryCount + 1) s with
      | error fault =>
        simp only [hloop] at h
        cases h
      | ok r =>
        obtain ⟨result₁, s₁⟩ := r
        obtain ⟨hwrite, -, hcond⟩ := cleanWhile_frame hloop
        simp only [hloop] at h
        split at h
        · rename_i hfailed
          have hlt : s₁.queue.writeIndex < s₁.queue.readIndex := by
            simpa [aheadOfWrite] using hcond hfailed
          cases h
          exact ⟨by rw [hwrite], hlt.le⟩
        · unfold accessHeader at h
          split at h
          · obtain ⟨hp, hwrite', hle⟩ := allocateAt_blocked h
            refine ⟨?_, hle⟩
            rw [hp, hwrite']
            rfl
          · cases h
    · obtain ⟨hp, hwrite, hle⟩ := allocateAt_blocked h
      exact ⟨by rw [hp, hwrite], hle⟩

/-- Entries that are not in the way of write_index. -/
theorem Ring.clear_of_room (h : Ring s es) (hroom : inTheWay size s.queue = false) (he : e ∈ es) :
    e.offset < s.queue.writeIndex ∨ s.queue.writeIndex + size + entryHeaderSize < e.offset := by
  have hcount : 0 < s.queue.entryCount := by
    rw [h.count]
    exact List.length_pos_of_mem he
  have hfar : s.queue.writeIndex ≤ s.queue.readIndex →
      s.queue.writeIndex + size + entryHeaderSize < s.queue.readIndex := by
    intro hle
    by_contra hnear
    have hin : inTheWay size s.queue = true := inTheWay_iff.mpr ⟨hcount, hle, by omega⟩
    rw [hin] at hroom
    cases hroom
  by_cases hw : s.queue.writeIndex ≤ s.queue.readIndex
  · obtain ⟨x, xs, rfl⟩ := List.exists_cons_of_ne_nil (List.ne_nil_of_mem he)
    obtain ⟨upper, lower, marker, rfl, high, -, -, low, -⟩ := h.layout.upper_of_le hw
    have hgap := hfar hw
    rw [← List.cons_append] at he
    rcases List.mem_append.mp he with he | he
    · have hlow := (high.tiled.mem_bounds he).1
      exact Or.inr (by omega)
    · have hbounds := low.tiled.mem_bounds he
      exact Or.inl (by omega)
  · have hbounds := (h.layout.segment_of_lt (by omega)).tiled.mem_bounds he
    exact Or.inl (by omega)

/-- The entries that remain lie before the position at which the allocation began, once it
has wrapped. -/
def Behind (q : MemoryQueueContext) (es : List Slot) (s : Store) : Prop :=
  s.queue.writeIndex = q.writeIndex ∨ ∀ e ∈ es, e.offset ≤ q.writeIndex

theorem Behind.wrap {q : MemoryQueueContext} (h : Behind q es s) (hring : Ring s es)
    (hr : s.queue.readIndex ≤ s.queue.writeIndex) : Behind q es (wrapQueue s) := by
  rcases h with hw | hall
  · by_cases hzero : q.writeIndex = 0
    · exact Or.inl hzero.symm
    · refine Or.inr fun e he => ?_
      rw [← hw] at hzero ⊢
      by_cases hlt : s.queue.readIndex < s.queue.writeIndex
      · have hbounds := (hring.layout.segment_of_lt hlt).tiled.mem_bounds he
        omega
      · obtain ⟨x, xs, rfl⟩ := List.exists_cons_of_ne_nil (List.ne_nil_of_mem he)
        obtain ⟨upper, lower, marker, -, -, -, -, low, gap⟩ := hring.layout.upper_of_le (by omega)
        by_cases hlow : lower = []
        · subst hlow
          have hz : 0 = s.queue.writeIndex := low.tiled
          exact absurd hz.symm hzero
        · have := gap hlow
          omega
  · exact Or.inr hall

theorem Behind.carried (s : Store) (size : Nat) (es : List Slot) :
    Carried s.queue size fun es' s' => Tracked s size es es' s' ∧ Behind s.queue es' s' := by
  refine (Tracked.carried s size es).and (fun e es' s' _ hb _ _ _ => ?_) fun es' s' ht hb hr => ?_
  · exact hb.imp_right fun hall x hx => hall x (List.mem_cons_of_mem _ hx)
  · exact hb.wrap ht.ring hr

/-- An allocation on a ring, with what it evicts. -/
inductive Allocated (s : Store) (es : List Slot) (k v expiry : Nat) (q : Option Pointer) :
    Except Fault (MemoryQueueResult × Option Pointer × Store) → Prop
  | outOfMemory (large : s.queue.capacityBytes < totalSize k v) :
      Allocated s es k v expiry q (.ok (.outOfMemory, q, s))
  | outOfBounds (narrow : s.queue.capacityBytes < s.queue.writeIndex + entryHeaderSize) :
      Allocated s es k v expiry q (.error .outOfBounds)
  | writeBlocked {e : Slot} {rest : List Slot} {s' : Store} (pointer : Pointer)
      (tracked : Tracked s (totalSize k v) es (e :: rest) s')
      (overrun : overruns s.queue (totalSize k v) e.offset) (locked : locks s.memory e.pointer ≠ 0) :
      Allocated s es k v expiry q (.ok (.writeBlocked, some pointer, unpublish s' e))
  | success {rest : List Slot} {s' : Store} (tracked : Tracked s (totalSize k v) es rest s')
      (room : inTheWay (totalSize k v) s'.queue = false)
      (fits : s'.queue.writeIndex + totalSize k v ≤ s'.queue.capacityBytes)
      (clear : ∀ e ∈ rest, ¬ overruns s.queue (totalSize k v) e.offset) :
      Allocated s es k v expiry q
        (.ok (.success, some (ringPointer s'.queue.writeIndex), place s' k v expiry))

theorem Ring.allocated (h : Ring s es) (hs : SafeIndex s es) (k v expiry : Nat) (q : Option Pointer) :
    Allocated s es k v expiry q (memoryQueueAllocate s k v expiry q) := by
  have hrule := memoryQueueAllocate_rule (k := k) (v := v) (Behind.carried s _ es)
    ⟨Tracked.start _ h hs, Or.inl rfl⟩ expiry q
  generalize memoryQueueAllocate s k v expiry q = r at hrule
  cases hrule with
  | outOfMemory large => exact .outOfMemory large
  | outOfBounds narrow => exact .outOfBounds narrow
  | @writeBlocked e rest s' pointer holds overrun locked =>
    rw [holds.1.locks_eq (List.mem_cons_self ..)] at locked
    exact .writeBlocked pointer holds.1 overrun locked
  | @success rest s' holds room fits start =>
    obtain ⟨tracked, behind⟩ := holds
    refine .success tracked room fits fun e he hover => ?_
    have hclear := tracked.ring.clear_of_room room he
    have hinside := tracked.ring.inside e he
    have hlt := e.offset_lt
    have hcapacity := tracked.capacity
    unfold overruns at hover
    split at hover
    · rename_i hwraps
      rw [if_pos hwraps] at start
      unfold wraps at hwraps
      rcases hover with hover | hover
      · rcases behind with hw | hall
        · omega
        · have := hall e he
          omega
      · omega
    · rename_i hwraps
      rw [if_neg hwraps] at start
      omega

end

end CacheServer
