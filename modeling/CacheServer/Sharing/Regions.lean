import Mathlib.Data.List.TakeWhile
import CacheServer.Ring.CleanRuns
import CacheServer.Sharing.Effects

/-!
# Calls keep what the connections own

An allocation evicts the oldest entries that are in its way, until one of them
is locked; it cannot see which are being filled. Where it evicts none of these,
and the index leads to complete entries only, a call keeps `Base`, and whatever
another connection has locked or is filling stays as it is.
-/

namespace CacheServer
open EntryHeader

/-- The live entries, as a walk along the ring finds them. -/
def liveEntries (s : Store) : List Slot := walk s.memory s.queue.entryCount s.queue.readIndex

/-- What an allocation of `size` bytes evicts. -/
def victims (s : Store) (size : Nat) : List Slot :=
  if s.queue.capacityBytes < size then []
  else (liveEntries s).takeWhile fun e =>
    overruns s.queue size e.offset ∧ locks s.memory e.pointer = 0

/-- The call is about to allocate; a size above the capacity is refused at once. -/
def Connection.Allocates (c : Connection) (w : World System) : Prop :=
  (c.state = .receivingArguments ∨ c.state = .awaitingWriteUnblock) ∧
    c.requestType = some .put ∧ totalSize c.keySize c.valueSize ≤ w.store.queue.capacityBytes

/-- The allocation that the call is about to make evicts the entry. -/
def Connection.Evicts (c : Connection) (w : World System) (e : Slot) : Prop :=
  c.Allocates w ∧ e ∈ victims w.store (totalSize c.keySize c.valueSize)

/-- The call is about to ask the index. -/
def Connection.LooksUp (c : Connection) : Prop :=
  c.state = .receivingBody ∨ c.state = .awaitingReadUnblock

/-- Among connections that fill the regions `F`: the size of a new entry does not wrap, and the
entry evicts no region that is being filled; a GET finds a complete live entry, a PUT or DELETE
one without the active bit. -/
structure Connection.Careful (c : Connection) (w : World System) (F : Slot → Prop) : Prop where
  sizes : c.Allocates w → entryHeaderSize + c.keySize + c.valueSize < 2 ^ 32
  evicts : ∀ e, c.Evicts w e → ¬ F e
  reads : c.LooksUp → c.requestType = some .get → ∀ p, c.target w = some p →
    ∃ e ∈ liveEntries w.store, e.pointer = p ∧ ¬ F e
  writes : c.LooksUp → c.requestType ≠ some .get → ∀ p, c.target w = some p →
    active w.memory p = 0

instance (c : Connection) (w : World System) : Decidable (c.Allocates w) :=
  inferInstanceAs (Decidable (_ ∧ _ ∧ _))

instance (c : Connection) : Decidable c.LooksUp := inferInstanceAs (Decidable (_ ∨ _))

theorem careful_iff {c : Connection} {w : World System} {F : Slot → Prop} :
    c.Careful w F ↔
      (c.Allocates w → entryHeaderSize + c.keySize + c.valueSize < 2 ^ 32 ∧
        ∀ e ∈ victims w.store (totalSize c.keySize c.valueSize), ¬ F e) ∧
      (c.LooksUp → ∀ p ∈ c.target w, if c.requestType = some .get
        then ∃ e ∈ liveEntries w.store, e.pointer = p ∧ ¬ F e else active w.memory p = 0) := by
  constructor
  · intro h
    refine ⟨fun ha => ⟨h.sizes ha, fun e he => h.evicts e ⟨ha, he⟩⟩, fun hl p hp => ?_⟩
    split
    · rename_i ht
      exact h.reads hl ht p hp
    · rename_i ht
      exact h.writes hl ht p hp
  · rintro ⟨hallocates, hlooks⟩
    refine ⟨fun ha => (hallocates ha).1, fun e he => (hallocates he.1).2 e he.2, fun hl ht p hp => ?_,
      fun hl ht p hp => ?_⟩
    · have h := hlooks hl p hp
      rwa [if_pos ht] at h
    · have h := hlooks hl p hp
      rwa [if_neg ht] at h

instance (c : Connection) (w : World System) (F : Slot → Prop) [DecidablePred F] :
    Decidable (c.Careful w F) := decidable_of_iff _ careful_iff.symm

theorem Ring.liveEntries_eq {s : Store} {es : List Slot} (h : Ring s es) : liveEntries s = es :=
  h.wellLaid.walked

theorem Ring.mem_victims {s : Store} {size : Nat} {gone kept : List Slot}
    (h : Ring s (gone ++ kept)) (hsize : size ≤ s.queue.capacityBytes)
    (hgone : ∀ e ∈ gone, overruns s.queue size e.offset ∧ locks s.memory e.pointer = 0) :
    ∀ e ∈ gone, e ∈ victims s size := by
  intro e he
  rw [victims, if_neg (by omega), h.liveEntries_eq,
    List.takeWhile_append_of_pos fun x hx => decide_eq_true (hgone x hx)]
  exact List.mem_append_left _ he

theorem locks_of_mem_victims {s : Store} {size : Nat} {e : Slot} (h : e ∈ victims s size) :
    locks s.memory e.pointer = 0 := by
  unfold victims at h
  split at h
  · cases h
  · have hv := List.mem_takeWhile_imp h
    simp only [decide_eq_true_eq] at hv
    exact hv.2

/-! ### Allocating -/

/-- An allocation while no entry is active leaves the index and the other blocks alone. -/
def Quiet (s : Store) (es : List Slot) (s' : Store) : Prop :=
  s'.hashmap = s.hashmap ∧ (∀ e ∈ es, active s'.memory e.pointer = 0) ∧
    ∀ n, s'.memory (.key n) = s.memory (.key n)

theorem retract_inactive {s : Store} {e : Slot} (h : active s.memory e.pointer = 0) :
    retract s e = s := if_neg (by rw [h]; decide)

theorem unpublish_inactive {s : Store} {e : Slot} (h : active s.memory e.pointer = 0) :
    unpublish s e = s := if_neg (by rw [h]; decide)

theorem key_ne_ring (n offset : Nat) : Block.key n ≠ (ringPointer offset).block := by
  intro h
  cases h

theorem Quiet.carried (s : Store) (size : Nat) (es : List Slot) :
    Carried s.queue size fun es' s' => Tracked s size es es' s' ∧ Quiet s es' s' := by
  refine (Tracked.carried s size es).and (fun e es' s' _ hq _ _ _ => ?_) fun es' s' _ hq _ => ?_
  · obtain ⟨hmap, hinactive, hkeys⟩ := hq
    have hsame := retract_inactive (hinactive e (by simp))
    refine ⟨?_, fun x hx => ?_, fun n => ?_⟩
    · rw [evict_hashmap, hsame, hmap]
    · rw [evict_memory, hsame]
      exact hinactive x (List.mem_cons_of_mem _ hx)
    · rw [evict_memory, hsame, hkeys]
  · obtain ⟨hmap, hinactive, hkeys⟩ := hq
    refine ⟨hmap, fun x hx => (active_setEndOfBuffer ..).trans (hinactive x hx), fun n => ?_⟩
    rw [← hkeys n]
    funext a
    exact setEndOfBuffer_outside s'.memory (ringPointer s'.queue.writeIndex) 1 (Or.inl (key_ne_ring n _))

theorem place_keys (s : Store) (k v expiry n : Nat) :
    (place s k v expiry).memory (.key n) = s.memory (.key n) := by
  funext a
  exact writeHeader_outside s.memory (ringPointer s.queue.writeIndex) k v expiry (Or.inl (key_ne_ring n _))

/-- What an allocation of `size` bytes leaves of the entries `es`. -/
structure Leaves (w : World System) (es : List Slot) (size : Nat) (w' : World System)
    (kept : List Slot) : Prop where
  split : ∃ gone, es = gone ++ kept ∧ ∀ e ∈ gone, e ∈ victims w.store size
  hashmap : w'.system.hashmap = w.system.hashmap
  entries : ∀ e ∈ kept, SameEntry e w.memory w'.memory
  keys : ∀ n, w'.memory (.key n) = w.memory (.key n)

section
variable {w : World System} {es kept : List Slot} {H : Pointer → Nat} {F : Slot → Prop}
  {k v size expiry : Nat} {p p' : Option Pointer} {s' : Store}

theorem Tracked.leaves (h : Tracked w.store size es kept s') (hr : Ring w.store es)
    (hsize : size ≤ w.store.queue.capacityBytes) (hq : Quiet w.store kept s') :
    Leaves w es size (w.withStore s') kept where
  split := by
    obtain ⟨gone, rfl, hgone⟩ := h.dropped
    exact ⟨gone, rfl, hr.mem_victims hsize hgone⟩
  hashmap := hq.1
  entries e he a h1 h2 _ := h.inside e he a h1 h2
  keys := hq.2.2

/-- Entries without a lock, and not being filled, may go. -/
theorem Base.evicted (h : Base w es H F none none) (hl : Leaves w es size (w.withStore s') kept)
    (hr : Ring s' kept) (hinactive : ∀ e ∈ kept, active s'.memory e.pointer = 0)
    (hlocks : ∀ e ∈ kept,
      EntryHeader.locks s'.memory e.pointer = EntryHeader.locks w.memory e.pointer)
    (hF : ∀ e ∈ victims w.store size, ¬ F e) : Base (w.withStore s') kept H F none none := by
  obtain ⟨gone, rfl, hgone⟩ := hl.split
  have hfree : ∀ e ∈ gone, H e.pointer = 0 := by
    intro e he
    have hcount := h.locks e (List.mem_append_left _ he)
    have hzero : EntryHeader.locks w.memory e.pointer = 0 := locks_of_mem_victims (hgone e he)
    rw [hzero] at hcount
    simpa using hcount.symm
  refine ⟨hr, hinactive, fun e he => ?_, fun p hp => ?_, fun e he => ?_, fun e he => by cases he⟩
  · rw [← h.locks e (List.mem_append_right _ he)]
    exact hlocks e he
  · obtain ⟨e, he, rfl, hFe, -⟩ := h.held p hp
    rcases List.mem_append.mp he with he | he
    · rw [hfree e he] at hp
      simp at hp
    · exact ⟨e, he, rfl, hFe, by simp⟩
  · rcases List.mem_append.mp (h.filled e he) with hg | hk
    · exact absurd he (hF e (hgone e hg))
    · exact hk

theorem Base.place (h : Base w kept H F none none) (hk : k < 2 ^ 16) (hv : v < 2 ^ 32)
    (hfits : entryHeaderSize + k + v < 2 ^ 32)
    (hroom : inTheWay (totalSize k v) w.store.queue = false)
    (hend : w.store.queue.writeIndex + totalSize k v ≤ w.store.queue.capacityBytes) (expiry : Nat) :
    Base (w.withStore (place w.store k v expiry)) (kept ++ [⟨w.store.queue.writeIndex, k, v⟩]) H F none
      (some ⟨w.store.queue.writeIndex, k, v⟩) := by
  have hring := h.ring.place hk hv hfits hroom hend expiry
  generalize he : (⟨w.store.queue.writeIndex, k, v⟩ : Slot) = e at hring
  have hnew : ∀ x ∈ kept, x.pointer ≠ e.pointer := fun x hx => (hring.pointer_ne_of_append hx (List.mem_singleton.mpr rfl)).symm
  have hinside : ∀ x ∈ kept, ∀ a, x.offset ≤ a → a < x.stop →
      (CacheServer.place w.store k v expiry).memory .ring a = w.memory .ring a := by
    intro x hx a h1 h2
    subst he
    exact Ring.place_outside hring hx h1 h2
  have hzero : H e.pointer = 0 := by
    by_contra hne
    obtain ⟨x, hx, hp, -⟩ := h.held e.pointer (Or.inl (by omega))
    exact hnew x hx hp
  have hp : e.pointer = ringPointer w.store.queue.writeIndex := by rw [← he]; rfl
  constructor
  · exact hring
  · intro x hx
    rcases List.mem_append.mp hx with hx | hx
    · exact (active_congr (hinside x hx x.offset le_rfl x.offset_lt)).trans (h.inactive x hx)
    · rw [List.mem_singleton.mp hx, hp]
      exact active_writeHeader ..
  · intro x hx
    rcases List.mem_append.mp hx with hx | hx
    · rw [← h.locks x hx]
      have hle := x.header_le
      refine load_congr fun a h1 h2 => hinside x hx a ?_ ?_
      · change x.offset + 14 ≤ a at h1
        omega
      · change a < x.offset + 14 + 2 at h2
        omega
    · rw [List.mem_singleton.mp hx, hzero, hp]
      exact locks_writeHeader ..
  · intro p hlock
    obtain ⟨x, hx, rfl, hFx, -⟩ := h.held p hlock
    exact ⟨x, List.mem_append_left _ hx, rfl, hFx, fun hxe => hnew x hx (by rw [Option.some.inj hxe])⟩
  · exact fun x hx => List.mem_append_left _ (h.filled x hx)
  · intro x hx
    cases hx
    exact ⟨by simp, fun hFe => hnew e (h.filled e hFe) rfl⟩

theorem Base.allocate (h : Base w es H F none none) (hk : k < 2 ^ 16) (hv : v < 2 ^ 32)
    (hfits : totalSize k v ≤ w.store.queue.capacityBytes → entryHeaderSize + k + v < 2 ^ 32)
    (hF : totalSize k v ≤ w.store.queue.capacityBytes →
      ∀ e ∈ victims w.store (totalSize k v), ¬ F e) {result : MemoryQueueResult}
    (ho : memoryQueueAllocate w.store k v expiry p = .ok (result, p', s')) :
    ∃ kept, Leaves w es (totalSize k v) (w.withStore s') kept ∧
      (((result = .outOfMemory ∨ result = .writeBlocked) ∧ Base (w.withStore s') kept H F none none) ∨
        (result = .success ∧ ∃ e, p' = some e.pointer ∧ e.keySize = k ∧ e.valueSize = v ∧
          Base (w.withStore s') (kept ++ [e]) H F none (some e))) := by
  by_cases hlarge : w.store.queue.capacityBytes < totalSize k v
  · rw [memoryQueueAllocate_large hlarge] at ho
    cases ho
    exact ⟨es, ⟨⟨[], rfl, by simp⟩, rfl, fun e _ => SameEntry.refl e _, fun _ => rfl⟩,
      Or.inl ⟨Or.inl rfl, h⟩⟩
  have hsize : totalSize k v ≤ w.store.queue.capacityBytes := by omega
  have hrule := memoryQueueAllocate_rule (k := k) (v := v) (Quiet.carried w.store (totalSize k v) es)
    ⟨Tracked.start _ h.ring (Or.inl h.inactive), rfl, h.inactive, fun _ => rfl⟩ expiry p
  rw [ho] at hrule
  generalize hr : (.ok (result, p', s') : Except Fault _) = r at hrule
  cases hrule with
  | outOfMemory large => exact absurd large hlarge
  | outOfBounds => cases hr
  | @writeBlocked e es' s₁ pointer holds overrun locked =>
    obtain ⟨htracked, hquiet⟩ := holds
    rw [unpublish_inactive (hquiet.2.1 e (by simp))] at hr
    cases hr
    have hleaves := htracked.leaves h.ring hsize hquiet
    exact ⟨e :: es', hleaves, Or.inl ⟨Or.inr rfl, h.evicted hleaves htracked.ring hquiet.2.1
      (fun x hx => htracked.locks_eq hx) (hF hsize)⟩⟩
  | @success es' s₁ holds room fits start =>
    obtain ⟨htracked, hquiet⟩ := holds
    cases hr
    have hleaves := htracked.leaves h.ring hsize hquiet
    have hbase := h.evicted hleaves htracked.ring hquiet.2.1 (fun x hx => htracked.locks_eq hx) (hF hsize)
    have hplaced := hbase.place hk hv (hfits hsize) room fits expiry
    refine ⟨es', ⟨hleaves.split, hleaves.hashmap, fun x hx a h1 h2 h3 => ?_, fun n => ?_⟩,
      Or.inr ⟨rfl, _, rfl, rfl, rfl, hplaced⟩⟩
    · rw [← hleaves.entries x hx a h1 h2 h3]
      exact Ring.place_outside hplaced.ring hx h1.le h2
    · rw [← hleaves.keys n]
      exact place_keys s₁ k v expiry n

end

/-! ### Calls -/

section
variable {c : Connection} {w : World System} {o : Outcome System} {es : List Slot}
  {H : Pointer → Nat} {F : Slot → Prop} {e : Slot}

/-- The call leaves the entry alone. -/
structure Spares (e : Slot) (w : World System) (o : Outcome System) : Prop where
  region : o.region ≠ some e
  same : SameEntry e w.memory o.world.memory
  unnamed : e.pointer ∉ named o.events

/-- A call keeps `Base`. The entries that it does not evict stay, and all but the one that it fills
are left alone. -/
def KeepsBase (c : Connection) (w : World System) (o : Outcome System) (es : List Slot)
    (H : Pointer → Nat) (F : Slot → Prop) : Prop :=
  ∃ es', Base o.world es' H F o.lock o.region ∧ ∀ e ∈ es, ¬ c.Evicts w e →
    e ∈ es' ∧ (c.region ≠ some e → Spares e w o)

theorem Spares.trans {o₁ o₂ : Outcome System} (h₁ : Spares e w o₁) (h₂ : Spares e o₁.world o₂) :
    Spares e w (o₂.after o₁.events) := by
  refine ⟨h₂.region, h₁.same.trans h₂.same, ?_⟩
  show e.pointer ∉ (o₁.events ++ o₂.events).filterMap Event.entry
  rw [List.filterMap_append]
  exact fun h => (List.mem_append.mp h).elim h₁.unnamed h₂.unnamed

theorem KeepsBase.of_same (h : Base o.world es H F o.lock o.region ∧
    ∀ e ∈ es, c.region ≠ some e → SameEntry e w.memory o.world.memory) (region : o.region = none)
    (unnamed : ∀ e ∈ es, c.region ≠ some e → e.pointer ∉ named o.events) : KeepsBase c w o es H F :=
  ⟨es, h.1, fun e he _ => ⟨he, fun hne => ⟨by simp [region], h.2 e he hne, unnamed e he hne⟩⟩⟩

theorem Base.quiet (h : Base w es H F c.lock c.region) (ring : o.world.memory .ring = w.memory .ring)
    (queue : o.world.system.queue = w.system.queue) (lock : o.lock = c.lock)
    (region : o.region = c.region ∨ o.region = none) :
    Base o.world es H F o.lock o.region ∧
      ∀ e ∈ es, c.region ≠ some e → SameEntry e w.memory o.world.memory := by
  refine ⟨?_, fun e _ _ a _ _ _ => congrFun ring a⟩
  rw [lock]
  rcases region with hr | hr
  · rw [hr]
    exact h.same queue ring
  · rw [hr]
    exact (h.same queue ring).drop

theorem releaseLock_memory (m : Memory) (p : Pointer) : (entryHeaderReleaseLock m p).2 =
    setLocks m p (if locks m p = 0 then 0xFFFF else locks m p - 1) := by
  unfold entryHeaderReleaseLock
  generalize (if locks m p = 0 then 0xFFFF else locks m p - 1) = n
  simp only
  split
  · rfl
  · split <;> rfl

theorem Base.released {p : Pointer} (h : Base w es H F (some p) none) :
    Base { w with memory := (entryHeaderReleaseLock w.memory p).2 } es H F none none ∧
      ∀ e ∈ es, SameEntry e w.memory (entryHeaderReleaseLock w.memory p).2 := by
  obtain ⟨e, he, rfl, -, -⟩ := h.held p (Or.inr rfl)
  have hlt := locks_lt w.memory e.pointer
  have hcount := h.locks e he
  rw [if_pos rfl] at hcount
  rw [releaseLock_memory, if_neg (by omega), hcount]
  refine ⟨h.setLocks he (by omega) ?_ (fun q hq => by cases hq) (fun q hq => by cases hq; rfl)
    (fun hq => by cases hq) (fun hq => by cases hq), (h.setLocks_frame he _).1⟩
  simp

theorem Transferred.base (ht : Transferred c w o) (h : Base w es H F c.lock c.region) :
    Base o.world es H F o.lock o.region ∧
      ∀ e ∈ es, c.region ≠ some e → SameEntry e w.memory o.world.memory := by
  cases ht with
  | quiet ring queue hashmap lock region =>
    exact h.quiet ring queue lock (region.imp_right o.region_disconnect)
  | @filled e bytes region window world lock kept =>
    rw [region] at h
    have hstop : e.stop = e.offset + (16 + e.keySize + e.valueSize) := rfl
    have hlow : e.offset + 16 ≤ e.offset + 16 + c.bufferIndex := by omega
    have hhigh : e.offset + 16 + c.bufferIndex + bytes.length ≤ e.stop := by omega
    obtain ⟨hbase, hother⟩ := h.write hlow hhigh
    refine ⟨?_, fun x hx hne a h1 h2 _ => ?_⟩
    · rw [world, lock, kept]
      exact hbase
    · rw [world]
      rw [region] at hne
      exact hother x hx (fun hxe => hne (congrArg some hxe.symm)) a h1.le h2
  | @released p held region world lock dropped =>
    rw [held, region] at h
    obtain ⟨hbase, hsame⟩ := h.released
    refine ⟨?_, fun e he _ => ?_⟩
    · rw [world, lock, dropped]
      exact hbase
    · rw [world]
      exact hsame e he

theorem Transferred.region_cases (ht : Transferred c w o) : o.region = c.region ∨ o.region = none := by
  cases ht with
  | quiet ring queue hashmap lock region => exact region.imp_right o.region_disconnect
  | filled region window world lock kept => exact Or.inl (kept.trans region.symm)
  | released held region world lock dropped => exact Or.inr dropped

theorem Transferred.silent (ht : Transferred c w o) : Silent o.events := by
  cases ht with
  | quiet ring queue hashmap lock region silent => exact silent
  | filled region window world lock kept events =>
    rw [events]
    exact ⟨rfl, rfl⟩
  | released held region world lock dropped silent => exact silent

theorem Transferred.spares (ht : Transferred c w o) (h : Base w es H F c.lock c.region) (he : e ∈ es)
    (hne : c.region ≠ some e) : Spares e w o := by
  refine ⟨?_, (ht.base h).2 e he hne, ?_⟩
  · rcases ht.region_cases with hr | hr <;> rw [hr]
    · exact hne
    · simp
  · rw [ht.silent.named]
    exact List.not_mem_nil

/- A connection that fills a region does nothing else in the ring. -/
theorem Transferred.fills (ht : Transferred c w o) (h : Base w es H F c.lock c.region)
    (hr : c.region = some e) : (∀ x ∈ es, x ≠ e → ∀ a, x.offset ≤ a → a < x.stop →
      o.world.memory .ring a = w.memory .ring a) ∧ (o.region = some e ∨ o.result = .disconnect) := by
  cases ht with
  | quiet ring queue hashmap lock region =>
    rw [hr] at region
    exact ⟨fun x _ _ a _ _ => congrFun ring a, region⟩
  | filled region window world lock kept =>
    cases hr.symm.trans region
    rw [hr] at h
    have hstop : e.stop = e.offset + (16 + e.keySize + e.valueSize) := rfl
    refine ⟨?_, Or.inl kept⟩
    rw [world]
    exact (h.write (by omega) (by omega)).2
  | released held region => cases hr.symm.trans region

theorem Base.acquired {p : Pointer} (h : Base w es H F none none) (he : e ∈ es)
    (hp : e.pointer = p) (hF : ¬ F e)
    (available : EntryHeader.locks w.memory p ≠ entryHeaderLockCapacity) :
    Base { w with memory := EntryHeader.setLocks w.memory p (EntryHeader.locks w.memory p + 1) } es H F
        (some p) none ∧
      ∀ e ∈ es, SameEntry e w.memory
        (EntryHeader.setLocks w.memory p (EntryHeader.locks w.memory p + 1)) := by
  subst hp
  have hlt := locks_lt w.memory e.pointer
  have hcount := h.locks e he
  rw [if_neg (by simp)] at hcount
  unfold entryHeaderLockCapacity at available
  rw [hcount] at hlt available ⊢
  exact ⟨h.setLocks he (by omega) (by simp) (fun q hq => by cases hq; rfl) (fun q hq => by cases hq)
    (fun _ => hF) (fun _ => by simp), (h.setLocks_frame he _).1⟩

/- Clearing a bit that is clear changes nothing. -/
theorem entryHashMapPut_memory {p : Pointer}
    (h : ∀ q, serverServices.entryHashMapGet p w = some q → active w.memory q = 0) :
    (serverServices.entryHashMapPut p w).2.memory = w.memory := by
  simp only [serverServices, entryHashMapGet, Hashmap.get] at h
  simp only [serverServices, entryHashMapPut, Hashmap.set]
  split
  · rename_i q _ hset
    split at hset
    · cases hset
    · obtain ⟨hq, -⟩ := Prod.mk.inj hset
      exact setActive_clear (h q hq)
  · rfl

theorem entryHashMapDelete_memory {p : Pointer}
    (h : ∀ q, serverServices.entryHashMapGet p w = some q → active w.memory q = 0) :
    (serverServices.entryHashMapDelete p w).memory = w.memory := by
  simp only [serverServices, entryHashMapGet, Hashmap.get] at h
  simp only [serverServices, entryHashMapDelete, Hashmap.delete]
  split
  · rename_i q _ hdelete
    obtain ⟨hq, -⟩ := Prod.mk.inj hdelete
    exact setActive_clear (h q hq)
  · rfl

/- What a PUT or DELETE does in the ring. -/
theorem Connection.Careful.put_memory {p : Pointer} (hc : c.Careful w F) (state : c.state = .receivingBody)
    (type : c.requestType = some .put) (entry : c.entryHeader = some p) :
    (serverServices.entryHashMapPut p w).2.memory = w.memory :=
  entryHashMapPut_memory fun q hq =>
    hc.writes (Or.inl state) (by rw [type]; decide) q ((target_of_body state entry).trans hq)

theorem Connection.Careful.delete_memory {p : Pointer} (hc : c.Careful w F)
    (state : c.state = .receivingBody) (type : c.requestType = some .delete)
    (entry : c.entryHeader = some p) :
    (serverServices.entryHashMapDelete p w).memory = w.memory :=
  entryHashMapDelete_memory fun q hq =>
    hc.writes (Or.inl state) (by rw [type]; decide) q ((target_of_body state entry).trans hq)

theorem Effect.base (he : Effect c w o) (hc : c.Careful w F) (h : Base w es H F c.lock c.region) :
    KeepsBase c w o es H F := by
  cases he with
  | transferred same =>
    exact ⟨es, (same.base h).1, fun e he _ => ⟨he, same.spares h he⟩⟩
  | @allocated result p s' expiry state type free call world lock region events =>
    rw [free.1, free.2] at h
    have hallocates : totalSize c.keySize c.valueSize ≤ w.store.queue.capacityBytes → c.Allocates w :=
      fun hsize => ⟨state, type, hsize⟩
    obtain ⟨kept, hleaves, hresult⟩ := h.allocate (ByteArea.loadLE_lt ..) (ByteArea.loadLE_lt ..)
      (fun hsize => hc.sizes (hallocates hsize))
      (fun hsize e he => hc.evicts e ⟨hallocates hsize, he⟩) call
    have hstays : ∀ e ∈ es, ¬ c.Evicts w e → e ∈ kept ∧ SameEntry e w.memory s'.memory := by
      obtain ⟨gone, rfl, hgone⟩ := hleaves.split
      intro e he hevicts
      rcases List.mem_append.mp he with he | he
      · refine absurd ⟨hallocates ?_, hgone e he⟩ hevicts
        by_contra hlarge
        have hv := hgone e he
        rw [victims, if_pos (by omega)] at hv
        cases hv
      · exact ⟨he, hleaves.entries e he⟩
    rw [KeepsBase, lock]
    rcases hresult with ⟨hr, hbase⟩ | ⟨rfl, e, rfl, hk, hv, hbase⟩
    · have hnone : handedOut c.keySize c.valueSize result p = none := by
        rcases hr with rfl | rfl <;> rfl
      rw [hnone] at region events
      refine ⟨kept, ?_, fun x hx hevicts => ?_⟩
      · rw [world, region]
        exact hbase
      · obtain ⟨hkept, hsame⟩ := hstays x hx hevicts
        refine ⟨hkept, fun _ => ⟨?_, ?_, ?_⟩⟩
        · simp [region]
        · rw [world]
          exact hsame
        · simp [events, named]
    · have hslot : handedOut c.keySize c.valueSize .success (some e.pointer) = some e := by
        rw [← hk, ← hv]
        rfl
      rw [hslot] at region events
      refine ⟨kept ++ [e], ?_, fun x hx hevicts => ?_⟩
      · rw [world, region]
        exact hbase
      · obtain ⟨hkept, hsame⟩ := hstays x hx hevicts
        have hne := (hbase.ring.pointer_ne_of_append hkept (List.mem_singleton.mpr rfl)).symm
        refine ⟨List.mem_append_left _ hkept, fun _ => ⟨?_, ?_, ?_⟩⟩
        · rw [region]
          exact fun h => hne (by rw [Option.some.inj h])
        · rw [world]
          exact hsame
        · simpa [events, named, Event.entry] using hne
  | @acquired p state type free target available ring queue hashmap lock region silent =>
    rw [free.1, free.2] at h
    obtain ⟨e, hlive, hp, hF⟩ := hc.reads state type p target
    rw [h.ring.liveEntries_eq] at hlive
    obtain ⟨hbase, hsame⟩ := h.acquired hlive hp hF available
    refine .of_same ⟨?_, fun x hx _ => ?_⟩ region fun x _ _ => by simp [silent.named]
    · rw [lock, region]
      exact hbase.same queue (congrFun ring _)
    · rw [ring]
      exact hsame x hx
  | @stored p e state type entry region free complete world lock dropped responds events =>
    refine .of_same (h.quiet ?_ ?_ (lock.trans free.symm) (Or.inr dropped)) dropped
      fun x hx hne hmem => ?_
    · rw [world, hc.put_memory state type entry]
    · rw [world]
      rfl
    · rw [events] at hmem
      have hp : x.pointer = e.pointer :=
        (eq_of_mem_putEvents hmem).trans (region_pointer region entry).symm
      exact hne (region.trans (congrArg some (h.eq_of_pointer (h.fills e region).1 hx hp.symm)))
  | deleted state type entry free ring queue hashmap lock region events =>
    refine .of_same (h.quiet ?_ queue (lock.trans free.1.symm) (Or.inr region)) region
      fun x _ _ => by simp [events, deleteEvents, named, Event.entry]
    rw [ring, hc.delete_memory state type entry]

theorem Effect.fills (he : Effect c w o) (hc : c.Careful w F) (h : Base w es H F c.lock c.region)
    (hr : c.region = some e) :
    (∀ x ∈ es, x ≠ e → ∀ a, x.offset ≤ a → a < x.stop →
      o.world.memory .ring a = w.memory .ring a) ∧
    (o.region = some e ∨ o.result = .disconnect ∨ o.connection.state = .sendingHeader) := by
  cases he with
  | transferred same =>
    obtain ⟨hbytes, hend⟩ := same.fills h hr
    exact ⟨hbytes, hend.imp_right Or.inl⟩
  | stored state type entry region free complete world lock dropped responds =>
    refine ⟨fun x _ _ a _ _ => ?_, Or.inr (Or.inr responds)⟩
    rw [world, hc.put_memory state type entry]
  | allocated expiry state type free => cases hr.symm.trans free.2
  | acquired state type free => cases hr.symm.trans free.2
  | deleted state type entry free => cases hr.symm.trans free.2

/-! ### Blocks from malloc -/

/-- A write to the ring is in no other block. -/
theorem KeysKept.of_ring {m : Memory} (memory : o.world.memory = m)
    (same : ∀ n, m (.key n) = w.memory (.key n))
    (malloced : w.system.malloced ≤ o.world.system.malloced) : KeysKept c w o :=
  ⟨malloced, fun n _ _ => (congrFun memory (.key n)).trans (same n)⟩

theorem Transferred.keys (ht : Transferred c w o) (h : Base w es H F c.lock c.region) :
    KeysKept c w o := by
  cases ht with
  | quiet ring queue hashmap lock region silent idle keys => exact keys
  | @filled e bytes region window world =>
    refine .of_ring (congrArg World.memory world) (fun n => ?_) (by rw [world])
    exact w.memory.write_other (ringPointer (e.offset + 16 + c.bufferIndex)) bytes (key_ne_ring n _)
  | @released p held region world =>
    obtain ⟨e, -, rfl, -⟩ := h.held p (Or.inr held)
    have hmemory : o.world.memory = (entryHeaderReleaseLock w.memory e.pointer).2 := by rw [world]
    rw [releaseLock_memory] at hmemory
    exact .of_ring hmemory (fun n => setLocks_other w.memory e.pointer _ (key_ne_ring n _))
      (by rw [world])

theorem Effect.keys (he : Effect c w o) (hc : c.Careful w F) (h : Base w es H F c.lock c.region) :
    KeysKept c w o := by
  cases he with
  | transferred same => exact same.keys h
  | allocated expiry state type free call world =>
    rw [free.1, free.2] at h
    obtain ⟨kept, hleaves, -⟩ := h.allocate (ByteArea.loadLE_lt ..) (ByteArea.loadLE_lt ..)
      (fun hsize => hc.sizes ⟨state, type, hsize⟩)
      (fun hsize e he => hc.evicts e ⟨⟨state, type, hsize⟩, he⟩) call
    exact .of_ring (congrArg World.memory world) hleaves.keys (by rw [world]; exact le_rfl)
  | @acquired p state type free target available ring queue hashmap lock region silent malloced =>
    obtain ⟨e, -, rfl, -⟩ := hc.reads state type p target
    exact .of_ring ring (fun n => setLocks_other w.memory e.pointer _ (key_ne_ring n _)) malloced
  | stored state type entry region free complete world =>
    refine .of_memory ?_ ?_
    · rw [world, hc.put_memory state type entry]
    · rw [world]
      exact le_rfl
  | deleted state type entry free ring queue hashmap lock region events malloced =>
    exact .of_memory (ring.trans (hc.delete_memory state type entry)) malloced

end

end CacheServer
