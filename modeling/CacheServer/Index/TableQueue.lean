import CacheServer.Ring.Admission

/-!
# Allocating over any index

While no live entry is active, an allocation asks the index for nothing, and
does the same over any index as over the associative array.
-/

namespace CacheServer

/-- The store with an associative array for its index. -/
def StoreOver.withArray {ι : Type} (s : StoreOver ι) (h : Hashmap) : Store := ⟨s.memory, s.queue, h⟩

end CacheServer

namespace CacheServer.RobinHood
open EntryHeader

/-- No live entry is active. -/
structure Inactive (s : Store) (es : List Slot) : Prop where
  ring : Ring s es
  inactive : ∀ e ∈ es, active s.memory e.pointer = 0

section
variable {ι : Type} [KeyIndex ι] {s : StoreOver ι} {h : CacheServer.Hashmap} {e : Slot} {es : List Slot} {p : Pointer}

theorem Inactive.evict {s : Store} (hi : Inactive s (e :: es))
    (hw : s.queue.writeIndex ≤ s.queue.readIndex) : Inactive (evict s e) es where
  ring := hi.ring.evict (Or.inl hi.inactive) hw
  inactive x hx := by
    have hsame : retract s e = s := if_neg (by rw [hi.inactive e (List.mem_cons_self ..)]; decide)
    rw [evict_memory, hsame]
    exact hi.inactive x (List.mem_cons_of_mem _ hx)

theorem removeEntry_array (ha : active s.memory p = 0) :
    removeEntry (s.withArray h) p =
      (removeEntry s p).map fun r => (r.1, r.2.withArray h) := by
  rw [removeEntry_total]
  unfold removeEntry accessHeader
  simp only [StoreOver.withArray, ha, ne_eq, not_true_eq_false, if_false]
  split
  · split
    · rfl
    · split
      · split <;> rfl
      · rfl
  · rfl

theorem removeEntry_frame {s' : StoreOver ι} {result : MemoryQueueResult}
    (ha : active s.memory p = 0) (h : removeEntry s p = .ok (result, s')) :
    s'.memory = s.memory ∧ s'.hashmap = s.hashmap := by
  unfold removeEntry accessHeader at h
  simp only [ha, ne_eq, not_true_eq_false, if_false] at h
  split at h
  · split at h
    · cases h
      exact ⟨rfl, rfl⟩
    · split at h
      · split at h <;> cases h <;> exact ⟨rfl, rfl⟩
      · cases h
  · cases h

theorem forceClean_array (ha : active s.memory (ringPointer s.queue.readIndex) = 0) :
    forceClean (s.withArray h) =
        (forceClean s).map (fun r => (r.1, r.2.withArray h)) ∧
      ∀ result s', forceClean s = .ok (result, s') → s'.hashmap = s.hashmap := by
  unfold forceClean
  have hremove : removeEntry (s.withArray h) _ = _ := removeEntry_array ha
  by_cases hcount : s.queue.entryCount > 0
  · have hcount' : (s.withArray h).queue.entryCount > 0 := hcount
    simp only [if_pos hcount, if_pos hcount']
    rw [show (s.withArray h).queue.readIndex = s.queue.readIndex from rfl, hremove]
    cases hr : removeEntry s (ringPointer s.queue.readIndex) with
    | error fault => exact ⟨rfl, fun result s' hs => by cases hs⟩
    | ok r =>
      obtain ⟨result, s'⟩ := r
      obtain ⟨hmemory, htable⟩ := removeEntry_frame ha hr
      have hclear : active s'.memory (ringPointer s.queue.readIndex) = 0 := by
        rw [hmemory]
        exact ha
      simp only [Except.map, StoreOver.withArray, hclear, ne_eq, not_true_eq_false, and_false,
        if_false, true_and]
      intro result' s'' hs
      cases hs
      exact htable
  · have hcount' : ¬ (s.withArray h).queue.entryCount > 0 := hcount
    rw [if_neg hcount, if_neg hcount']
    exact ⟨rfl, fun result s' hs => by cases hs⟩

theorem map_eq_ok {α β : Type} {f : α → β} {x : Except Fault α} {y : β} (h : x.map f = .ok y) :
    ∃ a, x = .ok a ∧ f a = y := by
  cases x with
  | error fault => cases h
  | ok a => exact ⟨a, rfl, Except.ok.inj h⟩

/-- A loop over the table and over the array, under a condition that leaves an entry to evict. -/
theorem cleanWhile_array (cond : MemoryQueueContext → Bool)
    (wrapped : ∀ es s, Inactive s es → cond s.queue = true →
      es ≠ [] ∧ s.queue.writeIndex ≤ s.queue.readIndex) (fuel : Nat)
    (hi : Inactive (s.withArray h) es) (hlen : es.length < fuel) :
    ∃ result s' es', cleanWhile cond fuel s = .ok (result, s') ∧
      cleanWhile cond fuel (s.withArray h) = .ok (result, s'.withArray h) ∧
      Inactive (s'.withArray h) es' ∧ (result = .success → cond s'.queue = false) ∧
      s'.hashmap = s.hashmap := by
  induction fuel generalizing s es with
  | zero => exact absurd hlen (Nat.not_lt_zero _)
  | succ fuel ih =>
    have hqueue : (s.withArray h).queue = s.queue := rfl
    rw [cleanWhile, cleanWhile, hqueue]
    cases hc : cond s.queue with
    | false => exact ⟨.success, s, es, rfl, rfl, hi, fun _ => hc, rfl⟩
    | true =>
      obtain ⟨hne, hw⟩ := wrapped es _ hi hc
      cases es with
      | nil => exact absurd rfl hne
      | cons e es =>
        have hread : ringPointer s.queue.readIndex = e.pointer :=
          congrArg ringPointer hi.ring.readIndex_eq
        have ha : active s.memory e.pointer = 0 := hi.inactive e (List.mem_cons_self ..)
        have hclean := forceClean_eq hi.ring hw
        obtain ⟨harray, htable⟩ := forceClean_array (h := h) (s := s) (by rw [hread]; exact ha)
        rw [if_pos rfl, if_pos rfl, hclean]
        rw [hclean] at harray
        by_cases hl : locks (s.withArray h).memory e.pointer ≠ 0
        · have hsame : unpublish (s.withArray h) e = s.withArray h := if_neg (not_not_intro ha)
          rw [if_pos hl, hsame] at harray ⊢
          obtain ⟨⟨result, s'⟩, hr, hmap⟩ := map_eq_ok harray.symm
          obtain ⟨rfl, hstore⟩ := Prod.mk.inj hmap
          rw [hr, ← hstore]
          refine ⟨.writeBlocked, s', e :: es, rfl, rfl, ?_, fun hs => (by cases hs), htable _ s' hr⟩
          rw [hstore]
          exact hi
        · rw [if_neg hl] at harray ⊢
          obtain ⟨⟨result, s'⟩, hr, hmap⟩ := map_eq_ok harray.symm
          obtain ⟨rfl, hstore⟩ := Prod.mk.inj hmap
          have hi' : Inactive (s'.withArray h) es := by
            rw [hstore]
            exact hi.evict hw
          simp only [List.length_cons] at hlen
          rw [hr, ← hstore]
          obtain ⟨result, s'', es', hclean', harray', hinactive, hdone, htable'⟩ := ih hi' (by omega)
          exact ⟨result, s'', es', hclean', harray', hinactive, hdone, htable'.trans (htable _ s' hr)⟩

omit [KeyIndex ι] in
theorem Inactive.length_lt (hi : Inactive (s.withArray h) es) : es.length < s.queue.entryCount + 1 := by
  have hcount : s.queue.entryCount = es.length := hi.ring.count
  omega

theorem allocateAt_array (hi : Inactive (s.withArray h) es) (k v expiry : Nat) :
    allocateAt (s.withArray h) p k v expiry =
        (allocateAt s p k v expiry).map (fun r => (r.1, r.2.1, r.2.2.withArray h)) ∧
      ∀ r, allocateAt s p k v expiry = .ok r → r.2.2.hashmap = s.hashmap := by
  obtain ⟨result, s', -, hclean, harray, -, -, htable⟩ := cleanWhile_array (inTheWay (totalSize k v))
    (fun es s hi hcond => by
      obtain ⟨hcount, hle, -⟩ := inTheWay_iff.mp hcond
      exact ⟨hi.ring.ne_nil hcount, hle⟩) _ hi hi.length_lt
  unfold allocateAt
  have hqueue : (s.withArray h).queue = s.queue := rfl
  simp only [hqueue, hclean, harray]
  by_cases hr : result ≠ .success
  · simp only [if_pos hr]
    refine ⟨rfl, fun r hs => ?_⟩
    cases hs
    exact htable
  · have hqueue' : (s'.withArray h).queue = s'.queue := rfl
    simp only [if_neg hr, accessHeader, hqueue']
    split
    · refine ⟨rfl, fun r hs => ?_⟩
      cases hs
      exact htable
    · exact ⟨rfl, fun r hs => by cases hs⟩

/-- An allocation over the table is one over the array, which it leaves alone. -/
theorem memoryQueueAllocate_array (hi : Inactive (s.withArray h) es) (k v expiry : Nat)
    (entryHeader : Option Pointer) :
    memoryQueueAllocate (s.withArray h) k v expiry entryHeader =
        (memoryQueueAllocate s k v expiry entryHeader).map (fun r => (r.1, r.2.1, r.2.2.withArray h)) ∧
      ∀ r, memoryQueueAllocate s k v expiry entryHeader = .ok r → r.2.2.hashmap = s.hashmap := by
  have hqueue : (s.withArray h).queue = s.queue := rfl
  unfold memoryQueueAllocate
  simp only [hqueue]
  by_cases hlarge : totalSize k v > s.queue.capacityBytes
  · simp only [if_pos hlarge]
    refine ⟨rfl, fun r hs => ?_⟩
    cases hs
    rfl
  simp only [if_neg hlarge]
  by_cases hwraps : s.queue.writeIndex + totalSize k v + entryHeaderSize ≥ s.queue.capacityBytes
  swap
  · simp only [if_neg hwraps]
    exact allocateAt_array hi k v expiry
  simp only [if_pos hwraps]
  obtain ⟨result, s', es', hclean, harray, hi', hdone, htable⟩ := cleanWhile_array aheadOfWrite
    (fun es s hi hcond => by
      have hlt : s.queue.writeIndex < s.queue.readIndex := by simpa [aheadOfWrite] using hcond
      refine ⟨?_, hlt.le⟩
      rintro rfl
      have := hi.ring.layout.indexes_of_nil
      omega) _ hi hi.length_lt
  simp only [hclean, harray]
  by_cases hr : result ≠ .success
  · simp only [if_pos hr]
    refine ⟨rfl, fun r hs => ?_⟩
    cases hs
    exact htable
  · have hr : result = .success := not_not.mp hr
    have hqueue' : (s'.withArray h).queue = s'.queue := rfl
    obtain ⟨hwrite, -, -⟩ := cleanWhile_frame harray
    have hwrite : s'.queue.writeIndex = s.queue.writeIndex := hwrite
    simp only [hr, ne_eq, not_true_eq_false, if_false, hqueue', accessHeader]
    by_cases hin : s.queue.writeIndex + entryHeaderSize ≤ s'.queue.capacityBytes
    · have hin' : (ringPointer s.queue.writeIndex).offset + entryHeaderSize ≤
        s'.queue.capacityBytes := hin
      have hwrapped : Inactive ((wrapQueue s').withArray h) es' := by
        refine ⟨hi'.ring.wrap (hdone hr) ?_, fun e he => ?_⟩
        · change s'.queue.writeIndex + _ ≤ _
          rw [hwrite]
          exact hin
        · exact (active_setEndOfBuffer ..).trans (hi'.inactive e he)
      obtain ⟨hsame, hkept⟩ := allocateAt_array (p := ringPointer 0) hwrapped k v expiry
      simp only [if_pos hin']
      exact ⟨hsame, fun r hs => (hkept r hs).trans htable⟩
    · have hin' : ¬ (ringPointer s.queue.writeIndex).offset + entryHeaderSize ≤
        s'.queue.capacityBytes := hin
      simp only [if_neg hin']
      exact ⟨rfl, fun r hs => by cases hs⟩

end

end CacheServer.RobinHood
