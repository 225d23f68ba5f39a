import CacheServer.Index.KeyCompare
import CacheServer.Library.KeyedList
import CacheServer.Ring.Runs

/-!
# Allocator and index together

`Coherent s es` says that the index binds exactly the active entries among the
live entries `es`, each to its own key. hashmap.c is taken as a map keyed by the
bytes of the key (`KeyedByBytes`).
-/

namespace CacheServer
open EntryHeader

/-- What hashmap.c finds for a key is an entry with that key. -/
def KeyedByBytes (hash : List UInt8 → Nat) : Prop :=
  ∀ k1 k2, hash k1 = hash k2 → keyCompare k1 k2 = 0 → k1 = k2

theorem keyedByBytes_of_injective {hash : List UInt8 → Nat} (h : Function.Injective hash) :
    KeyedByBytes hash := fun _ _ heq _ => h heq

/-- The pointer that the index binds to a key. -/
def lookup (s : Store) (k : List UInt8) : Option Pointer :=
  (s.hashmap.items.find? fun item =>
    item.1 = s.hashmap.hash k ∧ keyCompare k (key s.memory item.2) = 0).map Prod.snd

theorem get_eq_lookup (s : Store) (p : Pointer) :
    entryHashMapGet s.hashmap s.memory p = lookup s (key s.memory p) := rfl

/-- Every item of the index is a live entry under the hash of its key, and no two have one key. -/
structure Indexed (s : Store) (es : List Slot) : Prop where
  keyed : KeyedByBytes s.hashmap.hash
  bound : ∀ item ∈ s.hashmap.items, ∃ e ∈ es, item.2 = e.pointer ∧
    item.1 = s.hashmap.hash (key s.memory e.pointer)
  distinct : DistinctKeys (fun item => key s.memory item.2) s.hashmap.items

structure Coherent (s : Store) (es : List Slot) : Prop extends Indexed s es where
  published : ∀ e ∈ es, active s.memory e.pointer ≠ 0 ↔ ∃ item ∈ s.hashmap.items, item.2 = e.pointer

/-! ### Keys of live entries -/

section
variable {m m' : Memory} {s s' : Store} {x e : Slot} {es : List Slot}

theorem key_congr (h : HeaderAt m x)
    (hsize : ∀ a, x.offset + 12 ≤ a → a < x.offset + 14 → m' .ring a = m .ring a)
    (hbytes : ∀ a, x.offset + 16 ≤ a → a < x.stop → m' .ring a = m .ring a) :
    key m' x.pointer = key m x.pointer := by
  have hstop : x.stop = x.offset + (16 + x.keySize + x.valueSize) := rfl
  have hsame : EntryHeader.keySize m' x.pointer = EntryHeader.keySize m x.pointer := load_congr hsize
  rw [key, key, hsame, h.keySize]
  refine Memory.read_congr fun a h1 h2 => hbytes a h1 ?_
  change a < x.offset + 16 + x.keySize at h2
  omega

theorem key_inside (h : HeaderAt m x)
    (hm : ∀ a, x.offset < a → a < x.stop → m' .ring a = m .ring a) :
    key m' x.pointer = key m x.pointer := by
  have hle := x.header_le
  exact key_congr h (fun a h1 h2 => hm a (by omega) (by omega)) fun a h1 h2 => hm a (by omega) h2

/- The keys behind the pointers of the index. -/
def SameKeys (s : Store) (m' : Memory) : Prop :=
  ∀ item ∈ s.hashmap.items, key m' item.2 = key s.memory item.2

theorem Indexed.sameKeys (h : Indexed s es) {capacity r w : Nat}
    (hl : RingLayout s.memory capacity r w es)
    (hm : ∀ e ∈ es, ∀ a, e.offset < a → a < e.stop → m' .ring a = s.memory .ring a) :
    SameKeys s m' := by
  intro item hitem
  obtain ⟨e, he, hp, _⟩ := h.bound item hitem
  rw [hp]
  exact key_inside (hl.header he) (hm e he)

theorem Indexed.congr (h : Indexed s es) (hk : SameKeys s m') :
    Indexed { s with memory := m' } es where
  keyed := h.keyed
  bound item hitem := by
    obtain ⟨e, he, hp, hhash⟩ := h.bound item hitem
    exact ⟨e, he, hp, by rw [← hp, hk item hitem, hp]; exact hhash⟩
  distinct := h.distinct.congr hk

theorem Coherent.congr (h : Coherent s es) (hk : SameKeys s m')
    (ha : ∀ e ∈ es, active m' e.pointer = active s.memory e.pointer) :
    Coherent { s with memory := m' } es where
  toIndexed := h.toIndexed.congr hk
  published e he := by
    show active m' e.pointer ≠ 0 ↔ _
    rw [ha e he]
    exact h.published e he

theorem Coherent.tail (h : Coherent s (e :: es)) (ha : active s.memory e.pointer = 0) :
    Coherent s es where
  keyed := h.keyed
  bound item hitem := by
    obtain ⟨x, hx, hp, hhash⟩ := h.bound item hitem
    rcases List.mem_cons.mp hx with rfl | hx
    · exact absurd ha ((h.published x (List.mem_cons_self ..)).mpr ⟨item, hitem, hp⟩)
    · exact ⟨x, hx, hp, hhash⟩
  distinct := h.distinct
  published x hx := h.published x (List.mem_cons_of_mem _ hx)

theorem Indexed.safe (h : Indexed s es) (hr : Ring s es) : SafeIndex s es := by
  refine Or.inr fun item hitem _ => ?_
  obtain ⟨e, he, hp, _⟩ := h.bound item hitem
  rw [hp]
  exact hr.layout.boundary he

/-! ### Lookups and deletions by key -/

theorem Indexed.found_iff (h : Indexed s es) {item : Nat × Pointer} (hitem : item ∈ s.hashmap.items)
    (k : List UInt8) : item.1 = s.hashmap.hash k ∧ keyCompare k (key s.memory item.2) = 0 ↔
      key s.memory item.2 = k := by
  obtain ⟨e, _, hp, hhash⟩ := h.bound item hitem
  constructor
  · rintro ⟨h1, h2⟩
    refine (h.keyed k _ ?_ h2).symm
    rw [← h1, hhash, hp]
  · rintro rfl
    exact ⟨by rw [hhash, hp], keyCompare_self _⟩

theorem Indexed.lookup_iff (h : Indexed s es) (k : List UInt8) (p : Pointer) :
    lookup s k = some p ↔ ∃ item ∈ s.hashmap.items, item.2 = p ∧ key s.memory item.2 = k := by
  have hfound : ∀ item ∈ s.hashmap.items, decide (item.1 = s.hashmap.hash k ∧
      keyCompare k (key s.memory item.2) = 0) = true ↔ key s.memory item.2 = k :=
    fun item hitem => decide_eq_true_iff.trans (h.found_iff hitem k)
  rw [lookup, Option.map_eq_some_iff]
  constructor
  · rintro ⟨item, hf, hp⟩
    have hitem := List.mem_of_find?_eq_some hf
    have hk := List.find?_some hf
    exact ⟨item, hitem, hp, (hfound item hitem).mp hk⟩
  · rintro ⟨item, hitem, hp, hk⟩
    exact ⟨item, h.distinct.find? hfound hitem hk, hp⟩

/- The bindings of a coherent index are its active entries. -/
theorem Coherent.lookup_iff (h : Coherent s es) (k : List UInt8) (p : Pointer) :
    lookup s k = some p ↔
      ∃ e ∈ es, p = e.pointer ∧ active s.memory e.pointer ≠ 0 ∧ key s.memory e.pointer = k := by
  rw [h.toIndexed.lookup_iff k p]
  constructor
  · rintro ⟨item, hitem, hp, hk⟩
    obtain ⟨e, he, hpe, _⟩ := h.bound item hitem
    exact ⟨e, he, hp.symm.trans hpe, (h.published e he).mpr ⟨item, hitem, hpe⟩, hpe ▸ hk⟩
  · rintro ⟨e, he, rfl, ha, hk⟩
    obtain ⟨item, hitem, hp⟩ := (h.published e he).mp ha
    exact ⟨item, hitem, hp, hp ▸ hk⟩

/-- What `entry_hash_map_delete` of a key does to a store. -/
structure Deleted (s : Store) (k : List UInt8) (s' : Store) : Prop where
  hash : s'.hashmap.hash = s.hashmap.hash
  sublist : s'.hashmap.items.Sublist s.hashmap.items
  items : ∀ item, item ∈ s'.hashmap.items ↔ item ∈ s.hashmap.items ∧ key s.memory item.2 ≠ k
  cleared : ∀ item ∈ s.hashmap.items, key s.memory item.2 = k → active s'.memory item.2 = 0
  kept : ∀ p, (∀ item ∈ s.hashmap.items, key s.memory item.2 = k → item.2 ≠ p) →
    active s'.memory p = active s.memory p

theorem Indexed.deleteKey (h : Indexed s es) (p : Pointer) :
    Deleted s (key s.memory p) (s.deleteKey p) := by
  have hfound : ∀ item ∈ s.hashmap.items,
      s.hashmap.found s.memory p item = true ↔ key s.memory item.2 = key s.memory p :=
    fun item hitem => decide_eq_true_iff.trans (h.found_iff hitem _)
  refine ⟨?_, ?_, fun item => ?_, fun item hitem hk => ?_, fun q hq => ?_⟩
  · rw [deleteKey_hashmap]
  · rw [deleteKey_hashmap]
    exact List.eraseP_sublist
  · rw [deleteKey_hashmap]
    exact h.distinct.mem_eraseP hfound
  · have hf := h.distinct.find? hfound hitem hk
    simp [Store.deleteKey, entryHashMapDelete, Hashmap.delete, hf]
  · cases hf : s.hashmap.items.find? (s.hashmap.found s.memory p) with
    | none => simp [Store.deleteKey, entryHashMapDelete, Hashmap.delete, hf]
    | some item =>
      have hitem := List.mem_of_find?_eq_some hf
      have hne := hq item hitem ((hfound item hitem).mp (List.find?_some hf))
      simp only [Store.deleteKey, entryHashMapDelete, Hashmap.delete, hf, Option.map_some]
      exact active_setActive_of_ne _ _ _ _ (Ne.symm hne)

theorem Indexed.deleted (h : Indexed s es) {k : List UInt8} (hd : Deleted s k s')
    (hk : SameKeys s s'.memory) : Indexed s' es where
  keyed := hd.hash ▸ h.keyed
  bound item hitem := by
    have hitem := ((hd.items item).mp hitem).1
    obtain ⟨e, he, hp, hhash⟩ := h.bound item hitem
    exact ⟨e, he, hp, by rw [hd.hash, ← hp, hk item hitem, hp]; exact hhash⟩
  distinct := (h.distinct.sublist hd.sublist).congr fun item hitem =>
    hk item ((hd.items item).mp hitem).1

/- Whatever the flags say of the entries with the deleted key, they are right afterwards, if
every active entry was bound. -/
theorem Deleted.published {k : List UInt8} (hd : Deleted s k s')
    (hp : active s.memory e.pointer ≠ 0 → ∃ item ∈ s.hashmap.items, item.2 = e.pointer)
    (hq : key s.memory e.pointer ≠ k → (∃ item ∈ s.hashmap.items, item.2 = e.pointer) →
      active s.memory e.pointer ≠ 0) :
    active s'.memory e.pointer ≠ 0 ↔ ∃ item ∈ s'.hashmap.items, item.2 = e.pointer := by
  constructor
  · intro ha
    have hfree : ∀ item ∈ s.hashmap.items, key s.memory item.2 = k → item.2 ≠ e.pointer := by
      intro item hitem hk he
      exact ha (he ▸ hd.cleared item hitem hk)
    obtain ⟨item, hitem, he⟩ := hp (hd.kept _ hfree ▸ ha)
    exact ⟨item, (hd.items item).mpr ⟨hitem, fun hk => hfree item hitem hk he⟩, he⟩
  · intro hbound
    obtain ⟨item, hitem, he⟩ := hbound
    obtain ⟨hitem, hne⟩ := (hd.items item).mp hitem
    rw [he] at hne
    rw [hd.kept]
    · exact hq hne ⟨item, hitem, he⟩
    · intro item' hitem' hk he'
      exact hne (he' ▸ hk)

theorem Coherent.deleted (h : Coherent s es) {k : List UInt8} (hd : Deleted s k s')
    (hk : SameKeys s s'.memory) : Coherent s' es where
  toIndexed := h.toIndexed.deleted hd hk
  published e he := hd.published (h.published e he).mp fun _ => (h.published e he).mpr

theorem Indexed.deleteKey_inside (h : Indexed s es) (hr : Ring s es) (p : Pointer) (hx : x ∈ es)
    {a : Nat} (h1 : x.offset < a) (h2 : a < x.stop) :
    (s.deleteKey p).memory .ring a = s.memory .ring a := by
  rcases deleteKey_memory s p with hm | ⟨item, hitem, hm⟩
  · rw [hm]
  · obtain ⟨e, he, hp, _⟩ := h.bound item hitem
    rw [hm]
    exact setActive_inside (fun _ => hp ▸ hr.layout.boundary he) hx 0 h1 h2

theorem Indexed.deleteKey_sameKeys (h : Indexed s es) (hr : Ring s es) (p : Pointer) :
    SameKeys s (s.deleteKey p).memory :=
  h.sameKeys hr.layout fun _ hx _ => h.deleteKey_inside hr p hx

theorem Coherent.deleteKey (h : Coherent s es) (hr : Ring s es) (p : Pointer) :
    Coherent (s.deleteKey p) es :=
  h.deleted (h.toIndexed.deleteKey p) (h.toIndexed.deleteKey_sameKeys hr p)

/-! ### Setting the active bit of a live entry -/

def mark (s : Store) (e : Slot) (v : Nat) : Store :=
  { s with memory := setActive s.memory e.pointer v }

theorem Ring.mark_inside (hr : Ring s es) (he : e ∈ es) (v : Nat) (hx : x ∈ es) {a : Nat}
    (h1 : x.offset < a) (h2 : a < x.stop) : (mark s e v).memory .ring a = s.memory .ring a :=
  setActive_inside (p := e.pointer) (fun _ => hr.layout.boundary he) hx v h1 h2

theorem Ring.mark (hr : Ring s es) (he : e ∈ es) (v : Nat) : Ring (mark s e v) es where
  layout := hr.layout.setActive e.pointer v fun _ => hr.layout.boundary he
  count := hr.count
  bytes := hr.bytes
  inside := hr.inside
  write_le := hr.write_le
  capacity_lt := hr.capacity_lt

theorem Indexed.mark (h : Indexed s es) (hr : Ring s es) (he : e ∈ es) (v : Nat) :
    Indexed (mark s e v) es :=
  h.congr (h.sameKeys hr.layout fun _ hx _ => hr.mark_inside he v hx)

theorem active_mark_of_ne (s : Store) (v : Nat) (h : x.pointer ≠ e.pointer) :
    active (mark s e v).memory x.pointer = active s.memory x.pointer :=
  active_setActive_of_ne _ _ _ _ h

/- After the entry was marked and its key deleted, the flags of the others are right. -/
theorem Coherent.published_mark (h : Coherent s es) {v : Nat}
    (hd : Deleted (CacheServer.mark s e v) (key (CacheServer.mark s e v).memory e.pointer) s')
    (hx : x ∈ es) (hne : x.pointer ≠ e.pointer) :
    active s'.memory x.pointer ≠ 0 ↔ ∃ item ∈ s'.hashmap.items, item.2 = x.pointer := by
  have ha := active_mark_of_ne s v hne
  refine hd.published (fun hx' => ?_) fun _ hitem => ?_
  · exact (h.published x hx).mp (ha ▸ hx')
  · rw [ha]
    exact (h.published x hx).mpr hitem

end

end CacheServer
