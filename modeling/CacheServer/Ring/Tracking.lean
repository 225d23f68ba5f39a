import CacheServer.Ring.Allocate

/-!
# What an allocation leaves of the ring

`Tracked s es es' s'` relates the store before an allocation with the store at
any point of it: which entries are gone, and what is unchanged of the others.
-/

namespace CacheServer
open EntryHeader

section
variable {m : Memory} {s : Store} {e x : Slot} {es : List Slot}

/- A flag is one byte at a boundary: no entry changes behind its first byte. -/
theorem setActive_inside {p : Pointer} (hp : p.block = .ring → Boundary es p.offset) (hx : x ∈ es)
    (v : Nat) {a : Nat} (h1 : x.offset < a) (h2 : a < x.stop) :
    setActive m p v .ring a = m .ring a := by
  refine setActive_outside m p v ?_
  by_cases hb : p.block = .ring
  · refine Or.inr fun ha => ?_
    rcases hp hb x hx with h | h <;> omega
  · exact Or.inl (Ne.symm hb)

theorem setEndOfBuffer_inside {b : Nat} (hb : Boundary es b) (hx : x ∈ es) (v : Nat) {a : Nat}
    (h1 : x.offset < a) (h2 : a < x.stop) :
    setEndOfBuffer m (ringPointer b) v .ring a = m .ring a := by
  refine setEndOfBuffer_outside m _ v (Or.inr fun ha => ?_)
  change a = b at ha
  rcases hb x hx with h | h <;> omega

theorem locks_congr {m m' : Memory}
    (h : ∀ a, x.offset < a → a < x.stop → m' .ring a = m .ring a) :
    locks m' x.pointer = locks m x.pointer := by
  have hle := x.header_le
  refine load_congr fun a h1 h2 => h a ?_ ?_
  · change x.offset + 14 ≤ a at h1
    omega
  · change a < x.offset + 14 + 2 at h2
    omega

theorem retract_inside (hs : SafeIndex s (e :: es)) (hx : x ∈ es) {a : Nat} (h1 : x.offset < a)
    (h2 : a < x.stop) : (retract s e).memory .ring a = s.memory .ring a := by
  unfold retract
  split
  · rename_i ha
    rcases hs with hs | hs
    · exact absurd (hs e (List.mem_cons_self ..)) ha
    · rcases deleteKey_memory s e.pointer with hm | ⟨item, hitem, hm⟩
      · rw [hm]
      · rw [hm]
        exact setActive_inside (hs item hitem) (List.mem_cons_of_mem _ hx) 0 h1 h2
  · rfl

theorem unpublish_inside (hs : SafeIndex s (e :: es)) (he : Boundary (e :: es) e.offset)
    (hx : x ∈ e :: es) {a : Nat} (h1 : x.offset < a) (h2 : a < x.stop) :
    (unpublish s e).memory .ring a = s.memory .ring a := by
  unfold unpublish
  split
  · rename_i ha
    have hclear : setActive s.memory e.pointer 0 .ring a = s.memory .ring a :=
      setActive_inside (fun _ => he) hx 0 h1 h2
    rcases hs with hs | hs
    · exact absurd (hs e (List.mem_cons_self ..)) ha
    · rcases deleteKey_memory { s with memory := setActive s.memory e.pointer 0 } e.pointer with
        hm | ⟨item, hitem, hm⟩
      · rw [hm]
        exact hclear
      · rw [hm, ← hclear]
        exact setActive_inside (hs item hitem) hx 0 h1 h2
  · rfl

theorem SafeIndex.evict (hs : SafeIndex s (e :: es)) : SafeIndex (evict s e) es := by
  unfold SafeIndex
  rw [evict_memory, evict_hashmap]
  rcases hs with hs | hs
  · have hm : retract s e = s := by
      unfold retract
      rw [if_neg]
      rw [hs e (List.mem_cons_self ..)]
      decide
    rw [hm]
    exact Or.inl fun x hx => hs x (List.mem_cons_of_mem _ hx)
  · refine Or.inr fun item hitem hb x hx => hs item ?_ hb x (List.mem_cons_of_mem _ hx)
    unfold retract at hitem
    split at hitem
    · exact deleteKey_items s _ item hitem
    · exact hitem

theorem SafeIndex.wrap (hs : SafeIndex s es) : SafeIndex (wrapQueue s) es := by
  rcases hs with hs | hs
  · exact Or.inl fun x hx => (active_setEndOfBuffer ..).trans (hs x hx)
  · exact Or.inr hs

/- Where write_index is not below read_index, it lies at a boundary. -/
theorem Ring.boundary_write (h : Ring s es) (hr : s.queue.readIndex ≤ s.queue.writeIndex) :
    Boundary es s.queue.writeIndex := by
  generalize hq : s.queue = q at hr
  have hl := h.layout
  rw [hq] at hl
  intro x hx
  cases hl with
  | linear all => exact Or.inr (all.tiled.mem_bounds hx).2.2
  | wrapped nonempty high marked inside low gap =>
    rename_i upper lower marker
    have hlow : lower = [] := by
      by_contra hl
      have := gap hl
      omega
    subst hlow
    have hw : q.writeIndex = 0 := Eq.symm low.tiled
    exact Or.inl (by omega)

end

/-- The store `s'` at a point of an allocation that began in `s` with the entries `es`. -/
structure Tracked (s : Store) (size : Nat) (es es' : List Slot) (s' : Store) : Prop where
  ring : Ring s' es'
  safe : SafeIndex s' es'
  dropped : ∃ gone, es = gone ++ es' ∧
    ∀ e ∈ gone, overruns s.queue size e.offset ∧ locks s.memory e.pointer = 0
  inside : ∀ e ∈ es', ∀ a, e.offset < a → a < e.stop → s'.memory .ring a = s.memory .ring a
  capacity : s'.queue.capacityBytes = s.queue.capacityBytes
  write : s'.queue.writeIndex = s.queue.writeIndex ∨ s'.queue.writeIndex = 0

theorem Tracked.start {s : Store} {es : List Slot} (size : Nat) (h : Ring s es)
    (hs : SafeIndex s es) : Tracked s size es es s :=
  ⟨h, hs, ⟨[], rfl, by simp⟩, fun _ _ _ _ _ => rfl, rfl, Or.inl rfl⟩

theorem Tracked.locks_eq {s s' : Store} {size : Nat} {es es' : List Slot}
    (h : Tracked s size es es' s') {e : Slot} (he : e ∈ es') :
    locks s'.memory e.pointer = locks s.memory e.pointer :=
  locks_congr (h.inside e he)

theorem Tracked.carried (s : Store) (size : Nat) (es : List Slot) :
    Carried s.queue size (Tracked s size es) where
  ring _ _ h := h.ring
  evict e es' s' h hover hw hlocks := by
    refine ⟨h.ring.evict h.safe hw, h.safe.evict, ?_, fun x hx a h1 h2 => ?_, h.capacity,
      h.write⟩
    · obtain ⟨gone, hes, hgone⟩ := h.dropped
      refine ⟨gone ++ [e], by rw [hes]; simp, fun x hx => ?_⟩
      rcases List.mem_append.mp hx with hx | hx
      · exact hgone x hx
      · rw [List.mem_singleton.mp hx]
        exact ⟨hover, (h.locks_eq (List.mem_cons_self ..)).symm.trans hlocks⟩
    · rw [evict_memory, retract_inside h.safe hx h1 h2]
      exact h.inside x (List.mem_cons_of_mem _ hx) a h1 h2
  wrap es' s' h _ hahead hfits := by
    have hr : s'.queue.readIndex ≤ s'.queue.writeIndex := by simpa [aheadOfWrite] using hahead
    refine ⟨h.ring.wrap hahead hfits, h.safe.wrap, h.dropped, fun x hx a h1 h2 => ?_, h.capacity,
      Or.inr rfl⟩
    rw [← h.inside x hx a h1 h2]
    exact setEndOfBuffer_inside (h.ring.boundary_write hr) hx 1 h1 h2

/-- A further invariant is carried if it is kept while the first one holds. -/
theorem Carried.and {q : MemoryQueueContext} {size : Nat} {P Q : List Slot → Store → Prop}
    (hP : Carried q size P)
    (evict : ∀ e es s, P (e :: es) s → Q (e :: es) s → overruns q size e.offset →
      s.queue.writeIndex ≤ s.queue.readIndex → locks s.memory e.pointer = 0 →
      Q es (CacheServer.evict s e))
    (wrap : ∀ es s, P es s → Q es s → s.queue.readIndex ≤ s.queue.writeIndex → Q es (wrapQueue s)) :
    Carried q size fun es s => P es s ∧ Q es s where
  ring es s h := hP.ring es s h.1
  evict e es s h hover hw hlocks :=
    ⟨hP.evict e es s h.1 hover hw hlocks, evict e es s h.1 h.2 hover hw hlocks⟩
  wrap es s h hwraps hahead hfits :=
    ⟨hP.wrap es s h.1 hwraps hahead hfits, wrap es s h.1 h.2 (by simpa [aheadOfWrite] using hahead)⟩

/-- An allocation from a ring, in full. -/
theorem Ring.allocate {s : Store} {es : List Slot} (h : Ring s es) (hs : SafeIndex s es)
    (k v expiry : Nat) (p : Option Pointer) :
    Allocation (Tracked s (totalSize k v) es) s k v expiry p (memoryQueueAllocate s k v expiry p) :=
  memoryQueueAllocate_rule (Tracked.carried s _ es) (Tracked.start _ h hs) expiry p

end CacheServer
