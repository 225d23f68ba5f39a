import Mathlib.Data.Nat.Pairing
import CacheServer.Ring.Coherence

/-!
# Runs of allocator and index

Entries are allocated, filled, marked active and put, as the unit tests do; keys
are deleted; locks change. What an allocation takes out of the index is exactly
what it evicts, and the active entry that blocks it.
-/

namespace CacheServer
open EntryHeader

section
variable {s : Store} {e x : Slot} {es : List Slot}

theorem Ring.pointer_ne (h : Ring s (e :: es)) (hx : x ∈ es) : x.pointer ≠ e.pointer := by
  have hsplit : Ring s ([e] ++ es) := h
  exact hsplit.pointer_ne_of_append (List.mem_singleton.mpr rfl) hx

/-! ### What the allocator does to the index -/

theorem Coherent.evict (h : Coherent s (e :: es)) (hr : Ring s (e :: es)) :
    Coherent (evict s e) es ∧
      ∀ x ∈ es, active (evict s e).memory x.pointer = active s.memory x.pointer := by
  by_cases ha : active s.memory e.pointer ≠ 0
  · have hretract : retract s e = s.deleteKey e.pointer := if_pos ha
    have hd := h.toIndexed.deleteKey e.pointer
    obtain ⟨item, hitem, hp⟩ := (h.published e (List.mem_cons_self ..)).mp ha
    have hcleared : active (s.deleteKey e.pointer).memory e.pointer = 0 :=
      hp ▸ hd.cleared item hitem (by rw [hp])
    have hcoherent := (h.deleteKey hr e.pointer).tail hcleared
    rw [← hretract] at hcoherent
    refine ⟨⟨⟨hcoherent.keyed, hcoherent.bound, hcoherent.distinct⟩, hcoherent.published⟩,
      fun x hx => ?_⟩
    rw [evict_memory, hretract]
    refine hd.kept x.pointer fun item' hitem' hk hx' => hr.pointer_ne hx ?_
    rw [← hx', h.distinct.eq_of_mem hitem' hitem (by rw [hk, hp]), hp]
  · have hretract : retract s e = s := if_neg ha
    have hcoherent := h.tail (by omega)
    rw [← hretract] at hcoherent
    exact ⟨⟨⟨hcoherent.keyed, hcoherent.bound, hcoherent.distinct⟩, hcoherent.published⟩,
      fun x _ => by rw [evict_memory, hretract]⟩

theorem Coherent.wrap (h : Coherent s es) (hr : Ring s es)
    (hle : s.queue.readIndex ≤ s.queue.writeIndex) : Coherent (wrapQueue s) es := by
  have hk : SameKeys s (wrapQueue s).memory := h.toIndexed.sameKeys hr.layout fun x hx a h1 h2 =>
    setEndOfBuffer_inside (hr.boundary_write hle) hx 1 h1 h2
  have hcoherent := h.congr hk fun x _ => active_setEndOfBuffer ..
  exact ⟨⟨hcoherent.keyed, hcoherent.bound, hcoherent.distinct⟩, hcoherent.published⟩

theorem Coherent.unpublish (h : Coherent s (e :: es)) (hr : Ring s (e :: es)) :
    Coherent (unpublish s e) (e :: es) ∧ active (unpublish s e).memory e.pointer = 0 ∧
      ∀ x ∈ es, active (unpublish s e).memory x.pointer = active s.memory x.pointer := by
  have he : e ∈ e :: es := List.mem_cons_self ..
  by_cases ha : active s.memory e.pointer ≠ 0
  swap
  · have hsame : CacheServer.unpublish s e = s := if_neg ha
    rw [hsame]
    exact ⟨h, by omega, fun x _ => rfl⟩
  have hunpublish : CacheServer.unpublish s e = (mark s e 0).deleteKey e.pointer := if_pos ha
  have h₁ := h.toIndexed.mark hr he 0
  have hr₁ := hr.mark he 0
  have hd := h₁.deleteKey e.pointer
  obtain ⟨item, hitem, hp⟩ := (h.published e he).mp ha
  have hcleared : active ((mark s e 0).deleteKey e.pointer).memory e.pointer = 0 :=
    hp ▸ hd.cleared item hitem (by rw [hp])
  rw [hunpublish]
  refine ⟨⟨h₁.deleted hd (h₁.deleteKey_sameKeys hr₁ _), fun x hx => ?_⟩, hcleared, fun x hx => ?_⟩
  · by_cases hxe : x.pointer = e.pointer
    · rw [hxe, hcleared]
      refine ⟨fun hne => absurd rfl hne, fun hbound => ?_⟩
      obtain ⟨item', hitem', hp'⟩ := hbound
      exact absurd (by rw [hp']) ((hd.items item').mp hitem').2
    · exact h.published_mark hd hx hxe
  · have hne := hr.pointer_ne hx
    rw [hd.kept, active_mark_of_ne s 0 hne]
    intro item' hitem' hk hx'
    refine hne ?_
    rw [← hx', h₁.distinct.eq_of_mem hitem' hitem (by rw [hk, hp]), hp]

/-! ### Putting an entry -/

/-- `entry_hash_map_put` of an entry whose active bit is set, where hashmap.c has memory. -/
def publish (s : Store) (e : Slot) : Store :=
  let (_, hashmap, memory) :=
    entryHashMapPut s.hashmap (setActive s.memory e.pointer 1) false e.pointer
  { s with hashmap, memory }

theorem publish_eq (s : Store) (e : Slot) :
    publish s e =
      let s' := (mark s e 1).deleteKey e.pointer
      { s' with hashmap := { s'.hashmap with items :=
        (s.hashmap.hash (key (mark s e 1).memory e.pointer), e.pointer) :: s'.hashmap.items } } := by
  cases hf : s.hashmap.items.find? (s.hashmap.found (setActive s.memory e.pointer 1) e.pointer) <;>
    simp [publish, mark, Store.deleteKey, entryHashMapDelete, Hashmap.delete, entryHashMapPut,
      Hashmap.set, entryHash, hf]

theorem Coherent.publish (h : Coherent s es) (hr : Ring s es) (he : e ∈ es)
    (ha : active s.memory e.pointer = 0) : Coherent (publish s e) es := by
  have h₁ := h.toIndexed.mark hr he 1
  have hr₁ := hr.mark he 1
  have hd := h₁.deleteKey e.pointer
  have hsame := h₁.deleteKey_sameKeys hr₁ e.pointer
  have h₂ := h₁.deleted hd hsame
  have hkey : key ((mark s e 1).deleteKey e.pointer).memory e.pointer =
      key (mark s e 1).memory e.pointer :=
    key_inside (hr₁.layout.header he) fun a => h₁.deleteKey_inside hr₁ e.pointer he
  have hfree : ∀ item ∈ s.hashmap.items, item.2 ≠ e.pointer := fun item hitem hp =>
    (h.published e he).mpr ⟨item, hitem, hp⟩ ha
  have hactive : active ((mark s e 1).deleteKey e.pointer).memory e.pointer = 1 := by
    rw [hd.kept _ fun item hitem _ => hfree item hitem]
    exact active_setActive ..
  rw [publish_eq]
  refine ⟨⟨h₂.keyed, fun item hitem => ?_, h₂.distinct.cons fun item hitem => ?_⟩, fun x hx => ?_⟩
  · rcases List.mem_cons.mp hitem with rfl | hitem
    · exact ⟨e, he, rfl, by rw [hkey, hd.hash]; rfl⟩
    · exact h₂.bound item hitem
  · obtain ⟨hitem, hne⟩ := (hd.items item).mp hitem
    rw [hsame item hitem, hkey]
    exact hne
  · by_cases hxe : x.pointer = e.pointer
    · rw [hxe]
      exact ⟨fun _ => ⟨_, List.mem_cons_self .., rfl⟩, fun _ => by rw [hactive]; decide⟩
    · refine (h.published_mark hd hx hxe).trans ⟨fun hb => ?_, fun hb => ?_⟩
      · obtain ⟨item, hitem, hp⟩ := hb
        exact ⟨item, List.mem_cons_of_mem _ hitem, hp⟩
      · obtain ⟨item, hitem, hp⟩ := hb
        rcases List.mem_cons.mp hitem with rfl | hitem
        · exact absurd hp.symm hxe
        · exact ⟨item, hitem, hp⟩

/-! ### Allocating -/

theorem Coherent.place (h : Coherent s es) (hr : Ring s es) {k v expiry : Nat}
    (hr' : Ring (place s k v expiry) (es ++ [⟨s.queue.writeIndex, k, v⟩])) :
    Coherent (place s k v expiry) (es ++ [⟨s.queue.writeIndex, k, v⟩]) := by
  have hnew : ∀ x ∈ es, x.offset ≠ s.queue.writeIndex := by
    intro x hx ho
    have hapart : x.Apart ⟨s.queue.writeIndex, k, v⟩ :=
      (List.pairwise_append.mp hr'.layout.pairwise_apart).2.2 x hx _ (List.mem_singleton.mpr rfl)
    have h1 := x.header_le
    have h2 := Slot.header_le ⟨s.queue.writeIndex, k, v⟩
    simp only [Slot.Apart] at hapart h2
    omega
  have hk : SameKeys s (CacheServer.place s k v expiry).memory :=
    h.toIndexed.sameKeys hr.layout fun x hx a h1 h2 => hr'.place_outside hx h1.le h2
  have ha : ∀ x ∈ es, active (CacheServer.place s k v expiry).memory x.pointer =
      active s.memory x.pointer := fun x hx =>
    active_congr (hr'.place_outside hx le_rfl x.offset_lt)
  have h₁ := h.congr hk ha
  refine ⟨⟨h₁.keyed, fun item hitem => ?_, h₁.distinct⟩, fun x hx => ?_⟩
  · obtain ⟨e, he, hp⟩ := h₁.bound item hitem
    exact ⟨e, List.mem_append_left _ he, hp⟩
  · rcases List.mem_append.mp hx with hx | hx
    · exact h₁.published x hx
    · rw [List.mem_singleton.mp hx]
      refine ⟨fun hne => absurd (active_writeHeader ..) hne, fun hb => ?_⟩
      obtain ⟨item, hitem, hp⟩ := hb
      obtain ⟨e, he, hpe, _⟩ := h.bound item hitem
      exact absurd (congrArg Pointer.offset (hpe.symm.trans hp)) (hnew e he)

/-- Allocator and index at a point of an allocation that began in `s`. -/
structure Following (s : Store) (size : Nat) (es es' : List Slot) (s' : Store) : Prop
    extends Tracked s size es es' s' where
  coherent : Coherent s' es'
  flags : ∀ e ∈ es', active s'.memory e.pointer = active s.memory e.pointer

theorem Following.carried (s : Store) (size : Nat) (es : List Slot) :
    Carried s.queue size (Following s size es) where
  ring _ _ h := h.ring
  evict e es' s' h hover hw hlocks := by
    obtain ⟨hcoherent, hflags⟩ := h.coherent.evict h.ring
    exact ⟨(Tracked.carried s size es).evict e es' s' h.toTracked hover hw hlocks, hcoherent,
      fun x hx => (hflags x hx).trans (h.flags x (List.mem_cons_of_mem _ hx))⟩
  wrap es' s' h hwraps hahead hfits :=
    ⟨(Tracked.carried s size es).wrap es' s' h.toTracked hwraps hahead hfits,
      h.coherent.wrap h.ring (by simpa [aheadOfWrite] using hahead),
      fun x hx => (active_setEndOfBuffer ..).trans (h.flags x hx)⟩

theorem Following.key_eq {s' : Store} {size : Nat} {es es' : List Slot}
    (h : Following s size es es' s') (hr : Ring s es) (hx : x ∈ es') :
    key s'.memory x.pointer = key s.memory x.pointer := by
  obtain ⟨gone, hes, _⟩ := h.dropped
  exact key_inside (hr.layout.header (hes ▸ List.mem_append_right _ hx)) (h.inside x hx)

/-- The index after a call: the bindings of `removed` are gone, the others are kept. -/
def Unbound (s s' : Store) (removed : List Slot) : Prop :=
  ∀ k, lookup s' k = (lookup s k).filter fun p => p ∉ removed.map Slot.pointer

/- Both indexes are coherent, so it is enough to compare the active entries. -/
theorem unbound_of_coherent {s s' : Store} {gone rest added removed : List Slot}
    (h : Coherent s (gone ++ rest)) (h' : Coherent s' (rest ++ added))
    (hkeys : ∀ x ∈ rest, key s'.memory x.pointer = key s.memory x.pointer)
    (hadded : ∀ x ∈ added, active s'.memory x.pointer = 0)
    (hgone : ∀ x ∈ gone, active s.memory x.pointer ≠ 0 → x ∈ removed)
    (hrest : ∀ x ∈ rest, active s'.memory x.pointer ≠ 0 ↔
      active s.memory x.pointer ≠ 0 ∧ x.pointer ∉ removed.map Slot.pointer) :
    Unbound s s' removed := by
  intro k
  refine Option.ext fun p => ?_
  rw [Option.filter_eq_some_iff, h'.lookup_iff, h.lookup_iff]
  constructor
  · intro hb
    obtain ⟨e, he, rfl, ha, hk⟩ := hb
    rcases List.mem_append.mp he with he | he
    · obtain ⟨ha', hremoved⟩ := (hrest e he).mp ha
      exact ⟨⟨e, List.mem_append_right _ he, rfl, ha', hkeys e he ▸ hk⟩, by simpa using hremoved⟩
    · exact absurd (hadded e he) ha
  · intro hb
    obtain ⟨⟨e, he, rfl, ha, hk⟩, hremoved⟩ := hb
    rcases List.mem_append.mp he with he | he
    · exact absurd (List.mem_map_of_mem (hgone e he ha)) (by simpa using hremoved)
    · exact ⟨e, List.mem_append_left _ he, rfl, (hrest e he).mpr ⟨ha, by simpa using hremoved⟩,
        (hkeys e he).trans hk⟩

end

/-! ### Runs -/

/-- Only locks and the payload of unpublished entries differ. -/
structure Filled (m m' : Memory) (es : List Slot) : Prop where
  outside : ∀ a, (∀ e ∈ es, a < e.offset ∨ e.stop ≤ a) → m' .ring a = m .ring a
  header : ∀ e ∈ es, ∀ a, e.offset ≤ a → a < e.offset + 14 → m' .ring a = m .ring a
  published : ∀ e ∈ es, active m e.pointer ≠ 0 →
    ∀ a, e.offset + entryHeaderSize ≤ a → a < e.stop → m' .ring a = m .ring a

inductive IndexRun (hash : List UInt8 → Nat) (capacity : Nat) : List Slot → Store → Prop
  | opened (memory : Memory) :
      IndexRun hash capacity [] ⟨memory, memoryQueueOpen capacity, ⟨hash, []⟩⟩
  | filled {past : List Slot} {s : Store} {memory : Memory} (run : IndexRun hash capacity past s)
      (change : Filled s.memory memory (live past s)) :
      IndexRun hash capacity past { s with memory }
  | published {past : List Slot} {s : Store} {e : Slot} (run : IndexRun hash capacity past s)
      (entry : e ∈ live past s) (fresh : active s.memory e.pointer = 0) :
      IndexRun hash capacity past (publish s e)
  | deleted {past : List Slot} {s : Store} (keyHeader : Pointer) (run : IndexRun hash capacity past s) :
      IndexRun hash capacity past (s.deleteKey keyHeader)
  | allocated {past : List Slot} {s s' : Store} {keySize valueSize expiry : Nat}
      {entryHeader p : Option Pointer} {result : MemoryQueueResult}
      (run : IndexRun hash capacity past s) (key : keySize < 2 ^ 16) (value : valueSize < 2 ^ 32)
      (size : entryHeaderSize + keySize + valueSize + entryHeaderSize ≤ capacity)
      (call : memoryQueueAllocate s keySize valueSize expiry entryHeader = .ok (result, p, s')) :
      IndexRun hash capacity (past ++ added keySize valueSize result p) s'

/-- The entries whose bindings a call removes: the active ones among those it evicts and the
one that blocks it. -/
def removedBy (s : Store) (result : MemoryQueueResult) (gone rest : List Slot) : List Slot :=
  (gone ++ if result = .writeBlocked then rest.take 1 else []).filter
    fun e => active s.memory e.pointer ≠ 0

section
variable {hash : List UInt8 → Nat} {capacity k v : Nat} {past : List Slot} {s : Store}

theorem Filled.touched {m m' : Memory} {es : List Slot} (h : Filled m m' es) : Touched m m' es where
  outside := h.outside
  sizes e he a h1 h2 := h.header e he a (by omega) h2
  marker e he := endOfBuffer_congr (h.header e he e.offset le_rfl (by omega))

theorem Coherent.filled {m' : Memory} {es : List Slot} (h : Coherent s es) (hr : Ring s es)
    (change : Filled s.memory m' es) : Coherent { s with memory := m' } es := by
  refine h.congr (fun item hitem => ?_) fun e he =>
    active_congr (change.header e he e.offset le_rfl (by omega))
  obtain ⟨e, he, hp, _⟩ := h.bound item hitem
  have ha := (h.published e he).mpr ⟨item, hitem, hp⟩
  rw [hp]
  exact key_congr (hr.layout.header he)
    (fun a h1 h2 => change.header e he a (by omega) h2) (change.published e he ha)

theorem Touched.refl (m : Memory) (es : List Slot) : Touched m m es :=
  ⟨fun _ _ => rfl, fun _ _ _ _ _ => rfl, fun _ _ => rfl⟩

theorem Touched.setActive {m m' : Memory} {es : List Slot} (h : Touched m m' es) {capacity r w : Nat}
    (hl : RingLayout m capacity r w es) {e : Slot} (he : e ∈ es) (v : Nat) :
    Touched m (setActive m' e.pointer v) es where
  outside a ha := by
    rw [← h.outside a ha]
    refine setActive_outside _ _ _ (Or.inr fun heq => ?_)
    have := ha e he
    have := e.header_le
    change a = e.offset at heq
    omega
  sizes x hx a h1 h2 := by
    rw [← h.sizes x hx a h1 h2]
    exact setActive_inside (p := e.pointer) (fun _ => hl.boundary he) hx v (by omega)
      (by have := x.header_le; omega)
  marker x hx := (endOfBuffer_setActive ..).trans (h.marker x hx)

theorem Touched.deleteKey {m : Memory} {es : List Slot} (h : Touched m s.memory es)
    {capacity r w : Nat} (hl : RingLayout m capacity r w es) (hi : Indexed s es) (p : Pointer) :
    Touched m (s.deleteKey p).memory es := by
  rcases deleteKey_memory s p with hm | ⟨item, hitem, hm⟩
  · rw [hm]
    exact h
  · obtain ⟨e, he, hp, _⟩ := hi.bound item hitem
    rw [hm, hp]
    exact h.setActive hl he 0

/-- What a call does to the index. -/
structure IndexCall (past : List Slot) (s : Store) (k v : Nat) (result : MemoryQueueResult)
    (p : Option Pointer) (s' : Store) (gone rest : List Slot) : Prop where
  prefixed : live past s = gone ++ rest
  left : live (past ++ added k v result p) s' = rest ++ added k v result p
  unbound : Unbound s s' (removedBy s result gone rest)

theorem mem_removedBy {result : MemoryQueueResult} {gone rest : List Slot} {x : Slot}
    (hx : x ∈ gone) (ha : active s.memory x.pointer ≠ 0) : x ∈ removedBy s result gone rest :=
  List.mem_filter.mpr ⟨List.mem_append_left _ hx, by simpa using ha⟩

theorem Coherent.allocate (h : QueueInvariant capacity past s) (hc : Coherent s (live past s))
    (hcap : capacity < 2 ^ 32) (hk : k < 2 ^ 16) (hv : v < 2 ^ 32)
    (hsize : entryHeaderSize + k + v + entryHeaderSize ≤ capacity) (expiry : Nat)
    (entryHeader : Option Pointer) :
    ∃ result p s' gone rest, memoryQueueAllocate s k v expiry entryHeader = .ok (result, p, s') ∧
      IndexCall past s k v result p s' gone rest ∧ Coherent s' (rest ++ added k v result p) := by
  have hfits : entryHeaderSize + k + v < 2 ^ 32 := by omega
  have htotal := totalSize_eq hfits
  have hcapacity := h.capacity_eq
  have hstart : Following s (totalSize k v) (live past s) (live past s) s :=
    { Tracked.start _ h.ring (hc.toIndexed.safe h.ring) with
      coherent := hc
      flags := fun _ _ => rfl }
  have hcall := memoryQueueAllocate_rule (k := k) (v := v) (Following.carried s _ _) hstart expiry
    entryHeader
  generalize memoryQueueAllocate s k v expiry entryHeader = r at hcall
  cases hcall with
  | outOfMemory large => omega
  | outOfBounds narrow =>
    rcases h.marker with hw | hw <;> omega
  | writeBlocked pointer holds overrun locked =>
    rename_i e es s'
    obtain ⟨gone, hes, _⟩ := holds.dropped
    have hring : Ring s (gone ++ e :: es) := hes ▸ h.ring
    obtain ⟨hcoherent, hcleared, hkept⟩ := holds.coherent.unpublish holds.ring
    have hleft : live (past ++ added k v .writeBlocked (some pointer)) (CacheServer.unpublish s' e) =
        (e :: es) ++ added k v .writeBlocked (some pointer) := by
      simpa [added] using holds.live_blocked
    refine ⟨_, _, _, gone, e :: es, rfl, ⟨hes, hleft, ?_⟩, by simpa [added] using hcoherent⟩
    refine unbound_of_coherent (hes ▸ hc) (by rwa [List.append_nil]) (fun x hx => ?_)
      (by simp) (fun x hx ha => mem_removedBy hx ha) fun x hx => ?_
    · rw [key_inside (holds.ring.layout.header hx) fun a h1 h2 => unpublish_inside holds.safe
        (holds.ring.layout.boundary (List.mem_cons_self ..)) hx h1 h2]
      exact holds.key_eq h.ring hx
    · have hremoved : ∀ y ∈ removedBy s .writeBlocked gone (e :: es), y ∈ gone ++ [e] := fun y hy => by
        simpa [removedBy] using (List.mem_filter.mp hy).1
      rcases List.mem_cons.mp hx with rfl | hx
      · rw [hcleared]
        refine ⟨fun hne => absurd rfl hne, fun hb => absurd (List.mem_map_of_mem ?_) hb.2⟩
        exact List.mem_filter.mpr ⟨by simp, by simpa using hb.1⟩
      · rw [hkept x hx, holds.flags x (List.mem_cons_of_mem _ hx)]
        refine ⟨fun ha => ⟨ha, fun hmem => ?_⟩, fun ha => ha.1⟩
        obtain ⟨y, hy, hp⟩ := List.mem_map.mp hmem
        have hsplit : Ring s ((gone ++ [e]) ++ es) := by simpa using hring
        exact hsplit.pointer_ne_of_append (hremoved y hy) hx hp.symm
  | success holds room fits start =>
    rename_i es s'
    obtain ⟨gone, hes, _⟩ := holds.dropped
    have hring : Ring s (gone ++ es) := hes ▸ h.ring
    have hring' := holds.ring.place hk hv hfits room fits expiry
    have hcoherent := holds.coherent.place holds.ring hring'
    refine ⟨_, _, _, gone, es, rfl, ⟨hes, holds.live_placed hring', ?_⟩, hcoherent⟩
    refine unbound_of_coherent (hes ▸ hc) hcoherent (fun x hx => ?_) (fun x hx => ?_)
      (fun x hx ha => mem_removedBy hx ha) fun x hx => ?_
    · rw [key_inside (holds.ring.layout.header hx) fun a h1 h2 => hring'.place_outside hx h1.le h2]
      exact holds.key_eq h.ring hx
    · rw [List.mem_singleton.mp hx]
      exact active_writeHeader ..
    · have hfree : x.pointer ∉ (removedBy s .success gone es).map Slot.pointer := by
        intro hmem
        obtain ⟨y, hy, hp⟩ := List.mem_map.mp hmem
        have hy : y ∈ gone := by simpa [removedBy] using (List.mem_filter.mp hy).1
        exact hring.pointer_ne_of_append hy hx hp.symm
      rw [active_congr (hring'.place_outside hx le_rfl x.offset_lt), holds.flags x hx]
      exact ⟨fun ha => ⟨ha, hfree⟩, fun ha => ha.1⟩

theorem IndexRun.invariant (run : IndexRun hash capacity past s) (hkeyed : KeyedByBytes hash)
    (hcap : capacity < 2 ^ 32) : QueueInvariant capacity past s ∧ Coherent s (live past s) := by
  induction run with
  | opened memory =>
    refine ⟨.opened memory _ (by omega), ⟨hkeyed, ?_, List.nodup_nil⟩, ?_⟩
    · simp
    · simp [live]
  | filled run change ih =>
    obtain ⟨hq, hc⟩ := ih
    exact ⟨hq.touched _ change.touched, hc.filled hq.ring change⟩
  | @published past s e run entry fresh ih =>
    obtain ⟨hq, hc⟩ := ih
    have hindexed := hc.toIndexed.mark hq.ring entry 1
    have hchange : Touched s.memory (publish s e).memory (live past s) := by
      rw [publish_eq]
      exact ((Touched.refl _ _).setActive hq.ring.layout entry 1).deleteKey hq.ring.layout hindexed _
    have hqueue : (publish s e).queue = s.queue := rfl
    have hinv := hq.touched (publish s e).hashmap hchange
    exact ⟨hinv, hc.publish hq.ring entry fresh⟩
  | @deleted past s keyHeader run ih =>
    obtain ⟨hq, hc⟩ := ih
    have hchange := (Touched.refl s.memory _).deleteKey hq.ring.layout hc.toIndexed keyHeader
    exact ⟨hq.touched (s.deleteKey keyHeader).hashmap hchange, hc.deleteKey hq.ring keyHeader⟩
  | @allocated past s s' keySize valueSize expiry entryHeader p result run key value size call ih =>
    obtain ⟨hq, hc⟩ := ih
    obtain ⟨result₁, p₁, s₁, gone₁, rest₁, hcall₁, _, hinv⟩ :=
      hq.allocate hcap key value size (hc.toIndexed.safe hq.ring) expiry entryHeader
    obtain ⟨result₂, p₂, s₂, gone₂, rest₂, hcall₂, hspec, hcoherent⟩ :=
      hc.allocate hq hcap key value size expiry entryHeader
    rw [call] at hcall₁ hcall₂
    cases hcall₁
    cases hcall₂
    exact ⟨hinv, hspec.left ▸ hcoherent⟩

/-- In any run, an entry is active exactly if the index binds its key to it, the index holds
nothing else, and a call unbinds exactly the active entries that it evicts or that block it. -/
theorem memoryQueue_index_coherent (hkeyed : KeyedByBytes hash) (hcap : capacity < 2 ^ 32)
    (run : IndexRun hash capacity past s) :
    (∀ e ∈ live past s, active s.memory e.pointer = 1 ↔
        entryHashMapGet s.hashmap s.memory e.pointer = some e.pointer) ∧
      (∀ item ∈ s.hashmap.items, ∃ e ∈ live past s, item.2 = e.pointer) ∧
      ∀ k v expiry entryHeader, k < 2 ^ 16 → v < 2 ^ 32 →
        entryHeaderSize + k + v + entryHeaderSize ≤ capacity →
        ∃ result p s' gone rest,
          memoryQueueAllocate s k v expiry entryHeader = .ok (result, p, s') ∧
            IndexCall past s k v result p s' gone rest := by
  obtain ⟨hq, hc⟩ := run.invariant hkeyed hcap
  refine ⟨fun e he => ?_, fun item hitem => ?_, fun k v expiry entryHeader hk hv hsize => ?_⟩
  · have hbit : active s.memory e.pointer < 2 := Nat.mod_lt _ (by decide)
    rw [get_eq_lookup, hc.lookup_iff]
    constructor
    · intro ha
      exact ⟨e, he, rfl, by omega, rfl⟩
    · intro hb
      obtain ⟨x, _, hp, ha, _⟩ := hb
      rw [← hp] at ha
      omega
  · obtain ⟨e, he, hp, _⟩ := hc.bound item hitem
    exact ⟨e, he, hp⟩
  · obtain ⟨result, p, s', gone, rest, hcall, hspec, _⟩ :=
      hc.allocate hq hcap hk hv hsize expiry entryHeader
    exact ⟨result, p, s', gone, rest, hcall, hspec⟩

end

/- A hash without collisions: length and value of the key. -/
def pairHash (k : List UInt8) : Nat := Nat.pair k.length (ByteArea.decodeLE k)

theorem pairHash_injective : Function.Injective pairHash := by
  intro a b h
  obtain ⟨hlen, hval⟩ := Nat.pair_eq_pair.mp h
  rw [← ByteArea.encodeLE_decodeLE a, ← ByteArea.encodeLE_decodeLE b, hlen, hval]

/-! ### A run that stores, replaces and evicts -/

/-- The first byte of the key is written, and the entry is put. -/
def storeEntry (s : Store) (e : Slot) (k : UInt8) : Store :=
  publish { s with memory := fun b a => if b = .ring ∧ a = e.offset + 16 then k else s.memory b a } e

/-- Entries are allocated at the offsets they have and stored under keys of one byte. -/
def storeAll : List (Slot × UInt8) → Store → Except Fault Store
  | [], s => .ok s
  | (e, k) :: es, s =>
    match memoryQueueAllocate s e.keySize e.valueSize 0 none with
    | .error fault => .error fault
    | .ok (result, p, s') =>
      if result = .success ∧ p = some e.pointer ∧ 0 < s'.queue.entryCount ∧
          active s'.memory e.pointer = 0 then storeAll es (storeEntry s' e k)
      else .error .assertion

section
variable {hash : List UInt8 → Nat} {capacity : Nat} {past : List Slot} {s s' : Store} {e : Slot}

theorem IndexRun.stored (hkeyed : KeyedByBytes hash) (hcap : capacity < 2 ^ 32)
    (run : IndexRun hash capacity past s) (he : e ∈ live past s) (hkey : 0 < e.keySize)
    (ha : active s.memory e.pointer = 0) (k : UInt8) :
    IndexRun hash capacity past (storeEntry s e k) := by
  have hapart : ∀ x ∈ live past s, x = e ∨ e.Apart x := fun x hx =>
    ((run.invariant hkeyed hcap).1.ring.layout.apart he hx).imp_left Eq.symm
  have hbyte : e.offset + 16 < e.stop := by
    unfold Slot.stop Slot.size entryHeaderSize
    omega
  have hfilled : Filled s.memory
      (fun b a => if b = .ring ∧ a = e.offset + 16 then k else s.memory b a) (live past s) := by
    constructor
    · intro a hout
      have hne : a ≠ e.offset + 16 := by
        rcases hout e he with h | h <;> omega
      exact if_neg fun h => hne h.2
    · intro x hx a h1 h2
      have hstop := x.header_le
      have hne : a ≠ e.offset + 16 := by
        rcases hapart x hx with rfl | h | h <;> omega
      exact if_neg fun h => hne h.2
    · intro x hx hactive a h1 h2
      have hne : a ≠ e.offset + 16 := by
        rcases hapart x hx with rfl | h | h
        · exact absurd ha hactive
        · omega
        · omega
      exact if_neg fun h => hne h.2
  refine (run.filled hfilled).published he ?_
  rw [← ha]
  refine active_congr (if_neg fun h => ?_)
  have hoffset : e.offset = e.offset + 16 := h.2
  omega

theorem IndexRun.storeAll (hkeyed : KeyedByBytes hash) (hcap : capacity < 2 ^ 32)
    {es : List (Slot × UInt8)} (hsize : ∀ e ∈ es, 0 < e.1.keySize ∧ e.1.keySize < 2 ^ 16 ∧
      e.1.valueSize < 2 ^ 32 ∧ entryHeaderSize + e.1.keySize + e.1.valueSize + entryHeaderSize ≤ capacity)
    (run : IndexRun hash capacity past s) (h : CacheServer.storeAll es s = .ok s') :
    IndexRun hash capacity (past ++ es.map Prod.fst) s' := by
  induction es generalizing past s with
  | nil =>
    cases h
    rwa [List.map_nil, List.append_nil]
  | cons ek es ih =>
    obtain ⟨e, k⟩ := ek
    unfold CacheServer.storeAll at h
    split at h
    · cases h
    · rename_i result p s₁ hcall
      split at h
      · rename_i hsuccess
        obtain ⟨rfl, rfl, hcount, ha⟩ := hsuccess
        obtain ⟨hpos, hk, hv, hfits⟩ := hsize _ (List.mem_cons_self ..)
        have hrun := run.allocated hk hv hfits hcall
        have he : e ∈ live (past ++ added e.keySize e.valueSize .success (some e.pointer)) s₁ := by
          have hlast : [e] <:+ live (past ++ [e]) s₁ := by
            rw [live, List.drop_append_of_le_length (by simp; omega)]
            exact List.suffix_append _ _
          exact hlast.subset (List.mem_singleton.mpr rfl)
        have hstored := ih (fun x hx => hsize x (List.mem_cons_of_mem _ hx))
          (hrun.stored hkeyed hcap he hpos ha k) h
        rw [List.append_assoc] at hstored
        exact hstored
      · cases h

end

/- Two entries are stored under one key and a third under another one, which is deleted and stored
again. A fourth is put to the start of the ring and takes the first binding with it. -/
theorem memoryQueue_index_coherent_evicts : ∃ past s, IndexRun pairHash 80 past s ∧
    live past s = [⟨0, 1, 2⟩, ⟨19, 1, 2⟩, ⟨38, 1, 2⟩] ∧
    s.hashmap.items.map Prod.snd = [ringPointer 38, ringPointer 19] ∧
    (∀ e ∈ live past s, active s.memory e.pointer = 1 ↔
        entryHashMapGet s.hashmap s.memory e.pointer = some e.pointer) ∧
      (∀ item ∈ s.hashmap.items, ∃ e ∈ live past s, item.2 = e.pointer) ∧
    ∃ p s', memoryQueueAllocate s 1 2 0 none = .ok (.success, p, s') ∧
      IndexCall past s 1 2 .success p s' [⟨0, 1, 2⟩, ⟨19, 1, 2⟩] [⟨38, 1, 2⟩] ∧
      removedBy s .success [⟨0, 1, 2⟩, ⟨19, 1, 2⟩] [⟨38, 1, 2⟩] = [⟨19, 1, 2⟩] := by
  have hkeyed := keyedByBytes_of_injective pairHash_injective
  have hrun : (storeAll [(⟨0, 1, 2⟩, 97), (⟨19, 1, 2⟩, 97), (⟨38, 1, 2⟩, 98)]
      ⟨fun _ _ => 0, memoryQueueOpen 80, ⟨pairHash, []⟩⟩).Gives fun s =>
        s.queue.entryCount = 3 ∧ active (s.deleteKey (ringPointer 38)).memory (ringPointer 38) = 0 ∧
          let s := publish (s.deleteKey (ringPointer 38)) ⟨38, 1, 2⟩
          s.hashmap.items.map Prod.snd = [ringPointer 38, ringPointer 19] ∧
            removedBy s .success [⟨0, 1, 2⟩, ⟨19, 1, 2⟩] [⟨38, 1, 2⟩] = [⟨19, 1, 2⟩] ∧
            (memoryQueueAllocate s 1 2 0 none).Gives fun r =>
              r.1 = .success ∧ r.2.1 = some (ringPointer 0) ∧ r.2.2.queue.entryCount = 2 := by
    decide +kernel
  obtain ⟨s, hs, hcount, ha, hitems, hremoved, ⟨result, p, s'⟩, hcall, hsuccess, hp, hcount'⟩ := hrun
  have hsuccess : result = .success := hsuccess
  have hp : p = some (ringPointer 0) := hp
  have hcount' : s'.queue.entryCount = 2 := hcount'
  subst hsuccess hp
  have hstored := IndexRun.storeAll hkeyed (by decide) (by decide) (.opened fun _ _ => 0) hs
  have hlive : live ([] ++ [⟨0, 1, 2⟩, ⟨19, 1, 2⟩, ⟨38, 1, 2⟩]) s =
      [⟨0, 1, 2⟩, ⟨19, 1, 2⟩, ⟨38, 1, 2⟩] := by
    rw [live, hcount]
    rfl
  have hindex := (hstored.deleted (ringPointer 38)).published (e := ⟨38, 1, 2⟩)
    (hlive ▸ (by decide : (⟨38, 1, 2⟩ : Slot) ∈ [⟨0, 1, 2⟩, ⟨19, 1, 2⟩, ⟨38, 1, 2⟩])) ha
  obtain ⟨hactive, hbound, hnext⟩ := memoryQueue_index_coherent hkeyed (by decide) hindex
  obtain ⟨result, p, s'', gone, rest, hcall', hspec⟩ := hnext 1 2 0 none (by decide) (by decide)
    (by decide)
  cases hcall.symm.trans hcall'
  have hrest : rest.length = 1 := by
    have hleft := congrArg List.length hspec.left
    rw [live, hcount'] at hleft
    simpa [added] using hleft.symm
  obtain ⟨rfl, rfl⟩ : gone = [⟨0, 1, 2⟩, ⟨19, 1, 2⟩] ∧ rest = [⟨38, 1, 2⟩] :=
    List.append_inj' (hspec.prefixed.symm.trans hlive) hrest
  exact ⟨_, _, hindex, hlive, hitems, hactive, hbound, _, s', hcall, hspec, hremoved⟩

end CacheServer
