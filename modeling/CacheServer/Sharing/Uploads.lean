import CacheServer.Sharing.Connections

/-!
# What has been received of an entry

`receipt` reads off the history which entry or key buffer a connection was given
last, and the bytes that it has received since. A call keeps the body in the
ring equal to these bytes, and puts an entry into the index only when they are
all there.
-/

namespace CacheServer
open EntryHeader

/-- What a connection was given last, and what it has received since. -/
structure Receipt where
  buffer : Pointer
  bytes : List UInt8
  deriving DecidableEq

def Receipt.next (i : Nat) (r : Option Receipt) : Nat × Event → Option Receipt
  | (j, .allocated p) | (j, .malloced p) => if j = i then some ⟨p, []⟩ else r
  | (j, .received bytes) =>
    if j = i then r.map fun r => { r with bytes := r.bytes ++ bytes } else r
  | _ => r

def receipt (history : List (Nat × Event)) (i : Nat) : Option Receipt :=
  history.foldl (Receipt.next i) none

/-- The history after a call of the connection `i`. -/
def extend (history : List (Nat × Event)) (i : Nat) (events : List Event) : List (Nat × Event) :=
  history ++ events.map fun event => (i, event)

/-- The connection `i` has received `n` bytes into the entry. -/
structure Uploading (m : Memory) (history : List (Nat × Event)) (i : Nat) (e : Slot) (n : Nat) :
    Prop where
  fits : e.keySize + e.valueSize < 2 ^ 32
  inside : n ≤ e.keySize + e.valueSize
  received : receipt history i = some ⟨e.pointer, m.read (ringPointer (e.offset + 16)) n⟩

/-- The entry was put into the index under its key when one connection had received all of its key
and value; nothing has been allocated there or put into the index since. -/
def Complete (m : Memory) (history : List (Nat × Event)) (p : Pointer) : Prop :=
  ∃ i before later, history = before ++ (i, .stored (key m p) (value m p) p) :: later ∧
    receipt before i = some ⟨p, key m p ++ value m p⟩ ∧ p ∉ named (later.map Prod.snd)

/-- The region that the connection `i` fills holds what it has received. -/
def Connection.Uploads (c : Connection) (m : Memory) (history : List (Nat × Event)) (i : Nat) : Prop :=
  ∀ e, c.region = some e → Uploading m history i e c.bufferIndex

section
variable {history : List (Nat × Event)} {events : List Event} {i j n : Nat} {e : Slot} {p : Pointer}
  {c : Connection} {w : World System} {o : Outcome System} {es : List Slot} {H : Pointer → Nat}
  {F : Slot → Prop} {m : Memory}

theorem extend_append (events' : List Event) :
    extend history i (events ++ events') = extend (extend history i events) i events' := by
  simp [extend]

theorem extend_nil : extend history i [] = history := List.append_nil _

theorem extend_events : (extend history i events).map Prod.snd = history.map Prod.snd ++ events := by
  simp [extend, Function.comp_def]

theorem receipt_extend (event : Event) :
    receipt (extend history i [event]) j = Receipt.next j (receipt history j) (i, event) := by
  simp [receipt, extend]

theorem receipt_other (hji : j ≠ i) (events : List Event) :
    receipt (extend history i events) j = receipt history j := by
  induction events generalizing history with
  | nil => rw [extend_nil]
  | cons event events ih =>
    rw [← List.singleton_append, extend_append, ih, receipt_extend]
    cases event with
    | allocated | malloced | received => exact if_neg (Ne.symm hji)
    | sent | executed | lookedUp | stored | freed | released => rfl

theorem Uploading.spared (h : Uploading w.memory history j e n) (hs : Spares e w o) (hji : j ≠ i) :
    Uploading o.world.memory (extend history i o.events) j e n := by
  refine ⟨h.fits, h.inside, ?_⟩
  rw [receipt_other hji, h.received]
  congr 2
  refine (Memory.read_congr fun a h1 h2 => ?_).symm
  have hstop : e.stop = e.offset + (16 + e.keySize + e.valueSize) := rfl
  have hle := h.inside
  change e.offset + 16 ≤ a at h1
  change a < e.offset + 16 + n at h2
  exact hs.same a (by omega) (by omega) (Or.inr h1)

theorem Complete.spared (h : Complete w.memory history e.pointer) (hs : Spares e w o)
    (hh : HeaderAt w.memory e) (i : Nat) :
    Complete o.world.memory (extend history i o.events) e.pointer := by
  obtain ⟨j, before, later, rfl, hreceived, hlater⟩ := h
  refine ⟨j, before, extend later i o.events, ?_, ?_, ?_⟩
  · rw [hs.same.key hh, hs.same.value hh, extend, extend, List.append_assoc, List.cons_append]
  · rw [hs.same.key hh, hs.same.value hh]
    exact hreceived
  · rw [extend_events, named, List.filterMap_append, List.mem_append, not_or]
    exact ⟨hlater, hs.unnamed⟩

/-! ### The connection that calls -/

theorem Uploading.received_bytes {bytes : List UInt8} (h : Uploading m history i e n)
    (hle : n + bytes.length ≤ e.keySize + e.valueSize) :
    Uploading (m.write (ringPointer (e.offset + 16 + n)) bytes) (extend history i [.received bytes])
      i e (n + bytes.length) := by
  refine ⟨h.fits, hle, ?_⟩
  have hread := m.read_write_next (ringPointer (e.offset + 16)) n bytes
  change (m.write (ringPointer (e.offset + 16 + n)) bytes).read _ _ = _ at hread
  rw [receipt_extend, h.received, hread]
  exact if_pos rfl

theorem Transferred.uploads (ht : Transferred c w o) (h : c.Uploads w.memory history i)
    (hr : o.region = some e) :
    Uploading o.world.memory (extend history i o.events) i e o.connection.bufferIndex := by
  have hopen : o.result ≠ .disconnect := fun hd => by
    rw [o.region_disconnect hd] at hr
    cases hr
  cases ht with
  | quiet ring queue hashmap lock region silent idle =>
    have hregion : c.region = some e := (region.resolve_right hopen).symm.trans hr
    obtain ⟨hc, hevents⟩ := (idle (by simp [hregion])).resolve_left hopen
    obtain ⟨fits, inside, received⟩ := h e hregion
    rw [hc, hevents, extend_nil]
    refine ⟨fits, inside, ?_⟩
    rw [received]
    congr 2
    exact (Memory.read_congr fun a _ _ => congrFun ring a).symm
  | @filled e' bytes region window world lock kept events index =>
    cases kept.symm.trans hr
    rw [world, events, index]
    exact (h e region).received_bytes window
  | released held region world lock dropped => cases dropped.symm.trans hr

theorem Uploading.begin (history : List (Nat × Event)) (i : Nat)
    (hfits : e.keySize + e.valueSize < 2 ^ 32) :
    Uploading m (extend history i [.allocated e.pointer]) i e 0 := by
  refine ⟨hfits, Nat.zero_le _, ?_⟩
  rw [receipt_extend]
  exact if_pos rfl

theorem Effect.uploads (he : Effect c w o) (h : c.Uploads w.memory history i)
    (hc : c.Careful w F) (hr : o.region = some e) :
    Uploading o.world.memory (extend history i o.events) i e o.connection.bufferIndex := by
  cases he with
  | transferred same => exact same.uploads h hr
  | @allocated result p s' expiry state type free call world lock region events index =>
    rw [region] at hr
    have hzero : o.connection.bufferIndex = 0 := by
      refine index.resolve_left fun hnone => ?_
      cases (hr.symm.trans region.symm).trans hnone
    rw [hr] at events
    rw [events, hzero]
    refine .begin history i ?_
    have hallocates : c.Allocates w := by
      refine ⟨state, type, ?_⟩
      by_contra hlarge
      rw [memoryQueueAllocate_large (by omega)] at call
      cases call
      cases hr
    have hsizes := hc.sizes hallocates
    have hslot : e.keySize = c.keySize ∧ e.valueSize = c.valueSize := by
      unfold handedOut at hr
      split at hr <;> cases hr
      exact ⟨rfl, rfl⟩
    unfold entryHeaderSize at hsizes
    omega
  | acquired state type free target available ring queue hashmap lock region => cases region.symm.trans hr
  | stored state type entry region free complete world lock dropped => cases dropped.symm.trans hr
  | deleted state type entry free ring queue hashmap lock region => cases region.symm.trans hr

/-! ### The index -/

theorem Transferred.hashmap_eq (ht : Transferred c w o) :
    o.world.system.hashmap = w.system.hashmap := by
  cases ht with
  | quiet ring queue hashmap => exact hashmap
  | filled region window world => rw [world]
  | released held region world => rw [world]

theorem put_hashmap (w : World System) (p : Pointer) :
    (serverServices.entryHashMapPut p w).2.system.hashmap =
      (w.system.hashmap.set w.memory w.system.answers.hashmapOom p).2 := by
  simp only [serverServices, entryHashMapPut]
  split <;> rename_i hset <;> rw [hset]

theorem delete_hashmap (w : World System) (p : Pointer) :
    (serverServices.entryHashMapDelete p w).system.hashmap =
      (w.system.hashmap.delete w.memory p).2 := by
  simp only [serverServices, entryHashMapDelete]
  split <;> rename_i hdelete <;> rw [hdelete]

theorem mem_put_items {item : Nat × Pointer}
    (h : item ∈ (serverServices.entryHashMapPut p w).2.system.hashmap.items) :
    item ∈ w.system.hashmap.items ∨ (item.2 = p ∧ w.system.answers.hashmapOom = false) := by
  rw [put_hashmap, Hashmap.set] at h
  cases hoom : w.system.answers.hashmapOom with
  | true =>
    rw [hoom, if_pos rfl] at h
    exact Or.inl h
  | false =>
    rw [hoom, if_neg (by simp)] at h
    rcases List.mem_cons.mp h with rfl | h
    · exact Or.inr ⟨rfl, rfl⟩
    · exact Or.inl (List.mem_of_mem_eraseP h)

theorem mem_delete_items {item : Nat × Pointer}
    (h : item ∈ (serverServices.entryHashMapDelete p w).system.hashmap.items) :
    item ∈ w.system.hashmap.items := by
  rw [delete_hashmap, Hashmap.delete] at h
  exact List.mem_of_mem_eraseP h

theorem requestOf_put {p : Pointer} (hr : c.region = some e) (hh : HeaderAt w.memory e)
    (hp : c.entryHeader = some p) :
    requestOf .put c w.memory p = ⟨.put, key w.memory p, value w.memory p⟩ := by
  have hpointer := region_pointer hr hp
  have hsize : keySize w.memory p = e.keySize ∧ valueSize w.memory p = e.valueSize := by
    rw [← hpointer]
    exact ⟨hh.keySize, hh.valueSize⟩
  obtain ⟨hkey, hvalue⟩ := region_sizes hr
  rw [key, value, hsize.1, hsize.2, ← hkey, ← hvalue]
  rfl

theorem Uploading.complete {p : Pointer} (h : Uploading w.memory history i e c.bufferIndex)
    (hr : c.region = some e) (hh : HeaderAt w.memory e)
    (hfull : c.bufferIndex = (e.keySize + e.valueSize) % 2 ^ 32) (hp : c.entryHeader = some p)
    (hoom : w.system.answers.hashmapOom = false) :
    Complete w.memory (extend history i (putEvents c w p)) p := by
  have hpointer := region_pointer hr hp
  have hsize : keySize w.memory p = e.keySize ∧ valueSize w.memory p = e.valueSize := by
    rw [← hpointer]
    exact ⟨hh.keySize, hh.valueSize⟩
  have hbody : w.memory.read (ringPointer (e.offset + 16)) c.bufferIndex =
      key w.memory p ++ value w.memory p := by
    have hvalue : (ringPointer (e.offset + 16)).add e.keySize =
        e.pointer.add (entryHeaderSize + e.keySize) :=
      e.pointer.add_add entryHeaderSize e.keySize
    rw [hfull, Nat.mod_eq_of_lt h.fits, Memory.read_add, key, value, hsize.1, hsize.2, ← hpointer, hvalue]
    rfl
  refine ⟨i, extend history i [.executed (requestOf .put c w.memory p)], [], ?_, ?_, by simp [named]⟩
  · rw [putEvents, if_neg (by simp [hoom]), requestOf_put hr hh hp]
    simp [extend]
  · rw [receipt_extend, ← hbody, ← hpointer]
    exact h.received

/-- What the index leads to after a call. -/
theorem Effect.items (he : Effect c w o) (h : c.Uploads w.memory history i)
    (hc : c.Careful w F) (hb : Base w es H F c.lock c.region) :
    ∀ item ∈ o.world.system.hashmap.items, item ∈ w.system.hashmap.items ∨
      ∃ e, e.pointer = item.2 ∧ c.region = some e ∧ o.region = none ∧
        Complete o.world.memory (extend history i o.events) item.2 := by
  intro item hitem
  cases he with
  | transferred same =>
    rw [same.hashmap_eq] at hitem
    exact Or.inl hitem
  | allocated expiry state type free call world =>
    rw [free.1, free.2] at hb
    obtain ⟨kept, hleaves, -⟩ := hb.allocate (ByteArea.loadLE_lt ..) (ByteArea.loadLE_lt ..)
      (fun hsize => hc.sizes ⟨state, type, hsize⟩)
      (fun hsize e he => hc.evicts e ⟨⟨state, type, hsize⟩, he⟩) call
    rw [world, hleaves.hashmap] at hitem
    exact Or.inl hitem
  | acquired state type free target available ring queue hashmap =>
    rw [hashmap] at hitem
    exact Or.inl hitem
  | deleted state type entry free ring queue hashmap =>
    rw [hashmap] at hitem
    exact Or.inl (mem_delete_items hitem)
  | @stored p e state type entry region free complete world lock dropped responds events =>
    rw [world] at hitem
    rcases mem_put_items hitem with hitem | ⟨hp, hoom⟩
    · exact Or.inl hitem
    · refine Or.inr ⟨e, (region_pointer region entry).trans hp.symm, region, dropped, ?_⟩
      rw [hp, events, world, hc.put_memory state type entry]
      exact (h e region).complete region (hb.header (hb.fills e region).1) complete entry hoom

/-! ### Calls -/

theorem Transferred.uploads_next {o₁ : Outcome System} (ht : Transferred c w o₁)
    (hresult : o₁.result = .success) (h : c.Uploads w.memory history i) :
    o₁.connection.Uploads o₁.world.memory (extend history i o₁.events) i := by
  intro e hr
  refine ht.uploads h ?_
  rw [o₁.region_eq (by rw [hresult]; decide)]
  exact hr

variable {call : ConnectionCall}

theorem ConnectionCall.uploads (hc : c.Valid) (hp : c.Placed) (careful : call.Careful c w F)
    (hrun : call.run c w = .ok o) (h : c.Uploads w.memory history i) (hr : o.region = some e) :
    Uploading o.world.memory (extend history i o.events) i e o.connection.bufferIndex := by
  rcases call.run_effect hc hp hrun with ⟨ht, -⟩ | ⟨o₁, o₂, ht, hresult, hreach, he, rfl, -⟩
  · exact ht.uploads h hr
  · show Uploading o₂.world.memory (extend history i (o₁.events ++ o₂.events)) i e _
    rw [extend_append]
    exact he.uploads (ht.uploads_next hresult h) (careful _ hreach) hr

theorem ConnectionCall.items (hc : c.Valid) (hp : c.Placed) (careful : call.Careful c w F)
    (hb : Base w es H F c.lock c.region) (hrun : call.run c w = .ok o)
    (h : c.Uploads w.memory history i) :
    ∀ item ∈ o.world.system.hashmap.items, item ∈ w.system.hashmap.items ∨
      ∃ e, e.pointer = item.2 ∧ c.region = some e ∧ o.region = none ∧
        Complete o.world.memory (extend history i o.events) item.2 := by
  intro item hitem
  rcases call.run_effect hc hp hrun with ⟨ht, -⟩ | ⟨o₁, o₂, ht, hresult, hreach, he, rfl, -⟩
  · rw [ht.hashmap_eq] at hitem
    exact Or.inl hitem
  · have hopen : o₁.result ≠ .disconnect := by rw [hresult]; decide
    obtain ⟨hbase, -⟩ := ht.base hb
    rw [o₁.lock_eq hopen, o₁.region_eq hopen] at hbase
    rcases he.items (ht.uploads_next hresult h) (careful _ hreach) hbase item hitem with
      hold | ⟨e, hpointer, hr, hnone, hcomplete⟩
    · rw [ht.hashmap_eq] at hold
      exact Or.inl hold
    · rw [← extend_append] at hcomplete
      refine Or.inr ⟨e, hpointer, ?_, hnone, hcomplete⟩
      rcases ht.region_cases with hregion | hregion
      · rw [← hregion, o₁.region_eq hopen]
        exact hr
      · rw [o₁.region_eq hopen, hr] at hregion
        cases hregion

theorem ConnectionCall.reached_hashmap {c' : Connection} {w' : World System} (hc : c.Valid)
    (hp : c.Placed) (h : call.reached c w = some (c', w')) : w'.system.hashmap = w.system.hashmap := by
  cases call with
  | unblockRead | unblockWrite =>
    cases h
    rfl
  | proc socket =>
    obtain ⟨events, ht⟩ := reached_proc h
    exact (connectionTransfer_effect hc hp ht).hashmap_eq

end

end CacheServer
