import CacheServer.Ring.Coherence
import CacheServer.Wire.Awaiting

/-!
# What connections own of the ring

A connection that receives the body of a PUT fills the region of its entry, one
that sends a value holds a lock on an entry. `Base` ties both to the live
entries. It is stated for one connection, with the lock `lk` and the region
`rg`, among others that hold `H p` locks on each entry and fill the regions `F`.
-/

namespace CacheServer
open EntryHeader

/-- The entry that a connection has locked. -/
def Connection.lock (c : Connection) : Option Pointer :=
  if c.flags.lockAcquired then c.entryHeader else none

/-- The region that a connection is filling. -/
def Connection.region (c : Connection) : Option Slot :=
  match c.state, c.requestType, c.entryHeader with
  | .receivingBody, some .put, some ⟨.ring, offset⟩ => some ⟨offset, c.keySize, c.valueSize⟩
  | _, _, _ => none

/-- All bytes of an entry but its flags and its lock count are the same. -/
def SameEntry (e : Slot) (m m' : Memory) : Prop :=
  ∀ a, e.offset < a → a < e.stop → (a < e.offset + 14 ∨ e.offset + 16 ≤ a) →
    m' .ring a = m .ring a

namespace SameEntry

variable {e : Slot} {m m' m'' : Memory}

theorem refl (e : Slot) (m : Memory) : SameEntry e m m := fun _ _ _ _ => rfl

theorem trans (h : SameEntry e m m') (h' : SameEntry e m' m'') : SameEntry e m m'' :=
  fun a h1 h2 h3 => (h' a h1 h2 h3).trans (h a h1 h2 h3)

theorem header (h : SameEntry e m m') (hh : HeaderAt m e) : HeaderAt m' e :=
  hh.congr fun a h1 h2 => h a (by omega) (by have := e.header_le; omega) (Or.inl h2)

theorem key (h : SameEntry e m m') (hh : HeaderAt m e) :
    EntryHeader.key m' e.pointer = EntryHeader.key m e.pointer :=
  key_congr hh (fun a h1 h2 => h a (by omega) (by have := e.header_le; omega) (Or.inl (by omega)))
    fun a h1 h2 => h a (by omega) h2 (Or.inr h1)

theorem value (h : SameEntry e m m') (hh : HeaderAt m e) :
    EntryHeader.value m' e.pointer = EntryHeader.value m e.pointer := by
  have hh' := h.header hh
  unfold EntryHeader.value
  rw [hh'.keySize, hh'.valueSize, hh.keySize, hh.valueSize]
  refine Memory.read_congr fun a h1 h2 => ?_
  have hstop : e.stop = e.offset + (16 + e.keySize + e.valueSize) := rfl
  change e.offset + (16 + e.keySize) ≤ a at h1
  change a < e.offset + (16 + e.keySize) + e.valueSize at h2
  exact h a (by omega) (by omega) (Or.inr (by omega))

end SameEntry

/-- Clearing a bit that is clear. -/
theorem setActive_clear {m : Memory} {p : Pointer} (h : active m p = 0) : setActive m p 0 = m := by
  funext b
  unfold setActive Memory.write Memory.update
  split
  · rename_i hb
    subst hb
    funext a
    by_cases ha : a = p.offset
    · subst ha
      have hbyte : flagByte (m p.block p.offset) 0 (endOfBuffer m p) = m p.block p.offset := by
        apply UInt8.toNat_inj.mp
        rw [flagByte_toNat]
        unfold active at h
        unfold endOfBuffer
        omega
      simp [ByteArea.write, hbyte]
    · exact ByteArea.write_outside _ _ _ (by simp only [List.length_singleton]; omega)
  · rfl

theorem Ring.update {s s' : Store} {es : List Slot} (h : Ring s es) (hq : s'.queue = s.queue)
    (hsize : ∀ e ∈ es, ∀ a, e.offset + 8 ≤ a → a < e.offset + 14 →
      s'.memory .ring a = s.memory .ring a)
    (hflag : ∀ a, Boundary es a → s'.memory .ring a = s.memory .ring a) : Ring s' es where
  layout := by
    rw [hq]
    exact h.layout.congr hsize fun a ha => endOfBuffer_congr (hflag a ha)
  count := by rw [hq, h.count]
  bytes := by rw [hq, h.bytes]
  inside := by
    rw [hq]
    exact h.inside
  write_le := by
    rw [hq]
    exact h.write_le
  capacity_lt := by
    rw [hq]
    exact h.capacity_lt

structure Base (w : World System) (es : List Slot) (H : Pointer → Nat) (F : Slot → Prop)
    (lk : Option Pointer) (rg : Option Slot) : Prop where
  ring : Ring w.store es
  inactive : ∀ e ∈ es, active w.memory e.pointer = 0
  locks : ∀ e ∈ es, locks w.memory e.pointer = H e.pointer + if lk = some e.pointer then 1 else 0
  held : ∀ p, 0 < H p ∨ lk = some p → ∃ e ∈ es, e.pointer = p ∧ ¬ F e ∧ rg ≠ some e
  filled : ∀ e, F e → e ∈ es
  fills : ∀ e, rg = some e → e ∈ es ∧ ¬ F e

namespace Base

variable {w w' : World System} {es : List Slot} {H : Pointer → Nat} {F : Slot → Prop}
  {lk lk' : Option Pointer} {rg rg' : Option Slot} {e : Slot}

theorem apart (h : Base w es H F lk rg) {x y : Slot} (hx : x ∈ es) (hy : y ∈ es) :
    x = y ∨ x.Apart y := h.ring.layout.apart hx hy

theorem eq_of_pointer (h : Base w es H F lk rg) {x y : Slot} (hx : x ∈ es) (hy : y ∈ es)
    (hp : x.pointer = y.pointer) : x = y := by
  have ho : x.offset = y.offset := congrArg Pointer.offset hp
  have hx' := x.offset_lt
  have hy' := y.offset_lt
  rcases h.apart hx hy with he | ha | ha
  · exact he
  · omega
  · omega

theorem header (h : Base w es H F lk rg) {x : Slot} (hx : x ∈ es) : HeaderAt w.memory x :=
  h.ring.layout.header hx

/-- A step that allocates nothing keeps the sizes in the headers and the bytes at boundaries. -/
theorem update (h : Base w es H F lk rg) (hq : w'.system.queue = w.system.queue)
    (hsize : ∀ e ∈ es, ∀ a, e.offset + 8 ≤ a → a < e.offset + 14 →
      w'.memory .ring a = w.memory .ring a)
    (hflag : ∀ a, Boundary es a → w'.memory .ring a = w.memory .ring a)
    (hlocks : ∀ e ∈ es, EntryHeader.locks w'.memory e.pointer =
      H e.pointer + if lk' = some e.pointer then 1 else 0)
    (hheld : ∀ p, 0 < H p ∨ lk' = some p → ∃ e ∈ es, e.pointer = p ∧ ¬ F e ∧ rg' ≠ some e)
    (hfills : ∀ e, rg' = some e → e ∈ es ∧ ¬ F e) : Base w' es H F lk' rg' where
  ring := h.ring.update hq hsize hflag
  inactive e he := by
    rw [active_congr (hflag e.offset (h.ring.layout.boundary he))]
    exact h.inactive e he
  locks := hlocks
  held := hheld
  filled := h.filled
  fills := hfills

/-- Nothing of the ring has changed. -/
theorem same (h : Base w es H F lk rg) (hq : w'.system.queue = w.system.queue)
    (hm : w'.memory .ring = w.memory .ring) : Base w' es H F lk rg := by
  refine h.update hq (fun e he a _ _ => by rw [hm]) (fun a _ => by rw [hm]) (fun e he => ?_) h.held
    h.fills
  rw [← h.locks e he]
  exact load_congr fun a _ _ => congrFun hm a

/-- The region is full, or its connection closed. -/
theorem drop (h : Base w es H F lk rg) : Base w es H F lk none where
  ring := h.ring
  inactive := h.inactive
  locks := h.locks
  held p hp := by
    obtain ⟨e, he, hep, hF, -⟩ := h.held p hp
    exact ⟨e, he, hep, hF, by simp⟩
  filled := h.filled
  fills e he := by cases he

/-! ### Writing the body -/

theorem write (h : Base w es H F lk (some e)) {offset : Nat} {bytes : List UInt8}
    (hlow : e.offset + 16 ≤ offset) (hhigh : offset + bytes.length ≤ e.stop) :
    Base { w with memory := w.memory.write (ringPointer offset) bytes } es H F lk (some e) ∧
      ∀ x ∈ es, x ≠ e →
        ∀ a, x.offset ≤ a → a < x.stop → w.memory.write (ringPointer offset) bytes .ring a =
          w.memory .ring a := by
  have hmem := (h.fills e rfl).1
  have hout : ∀ a, a < offset ∨ offset + bytes.length ≤ a →
      w.memory.write (ringPointer offset) bytes .ring a = w.memory .ring a :=
    fun a ha => Memory.write_outside _ _ _ (Or.inr ha)
  have hother : ∀ x ∈ es, x ≠ e → ∀ a, x.offset ≤ a → a < x.stop →
      w.memory.write (ringPointer offset) bytes .ring a = w.memory .ring a := by
    intro x hx hne a h1 h2
    rcases h.apart hx hmem with he | ha | ha
    · exact absurd he hne
    · exact hout a (by omega)
    · exact hout a (by omega)
  refine ⟨h.update rfl (fun x hx a h1 h2 => ?_) (fun a ha => ?_) (fun x hx => ?_) h.held h.fills, hother⟩
  · have hle := x.header_le
    by_cases hne : x = e
    · subst hne
      exact hout a (by omega)
    · exact hother x hx hne a (by omega) (by omega)
  · have hle := e.header_le
    rcases ha e hmem with hb | hb
    · exact hout a (by omega)
    · exact hout a (by omega)
  · rw [← h.locks x hx]
    refine load_congr fun a h1 h2 => ?_
    change x.offset + 14 ≤ a at h1
    change a < x.offset + 14 + 2 at h2
    have hle := x.header_le
    by_cases hne : x = e
    · subst hne
      exact hout a (by omega)
    · exact hother x hx hne a (by omega) (by omega)

/-! ### Locks -/

theorem setLocks_frame (h : Base w es H F lk rg) (he : e ∈ es) (n : Nat) :
    (∀ x ∈ es, SameEntry x w.memory (setLocks w.memory e.pointer n)) ∧
      (∀ a, Boundary es a → setLocks w.memory e.pointer n .ring a = w.memory .ring a) ∧
      ∀ x ∈ es, x ≠ e →
        EntryHeader.locks (setLocks w.memory e.pointer n) x.pointer = EntryHeader.locks w.memory x.pointer := by
  have hout : ∀ a, a < e.offset + 14 ∨ e.offset + 16 ≤ a →
      setLocks w.memory e.pointer n .ring a = w.memory .ring a := by
    intro a ha
    refine store_outside _ _ _ _ _ (Or.inr ?_)
    change a < e.offset + 14 ∨ e.offset + 14 + 2 ≤ a
    omega
  refine ⟨fun x hx a h1 h2 h3 => ?_, fun a ha => ?_, fun x hx hne => ?_⟩
  · have hle := e.header_le
    rcases h.apart hx he with heq | hap | hap
    · subst heq
      exact hout a h3
    · exact hout a (by omega)
    · exact hout a (by omega)
  · have hle := e.header_le
    rcases ha e he with hb | hb
    · exact hout a (by omega)
    · exact hout a (by omega)
  · refine load_congr fun a h1 h2 => ?_
    change x.offset + 14 ≤ a at h1
    change a < x.offset + 14 + 2 at h2
    have hle := x.header_le
    have hle' := e.header_le
    rcases h.apart hx he with heq | hap | hap
    · exact absurd heq hne
    · exact hout a (by omega)
    · exact hout a (by omega)

theorem setLocks (h : Base w es H F lk rg) (he : e ∈ es) {n : Nat} (hn : n < 2 ^ 16)
    (hcount : n = H e.pointer + if lk' = some e.pointer then 1 else 0)
    (hlk : ∀ p, lk' = some p → p = e.pointer) (hlk₀ : ∀ p, lk = some p → p = e.pointer)
    (hF : lk' = some e.pointer → ¬ F e) (hrg : lk' = some e.pointer → rg ≠ some e) :
    Base { w with memory := EntryHeader.setLocks w.memory e.pointer n } es H F lk' rg := by
  obtain ⟨hsame, hflag, hlocks⟩ := h.setLocks_frame he n
  refine h.update rfl (fun x hx a h1 h2 => ?_) hflag (fun x hx => ?_) (fun p hp => ?_) h.fills
  · exact hsame x hx a (by omega) (by have := x.header_le; omega) (Or.inl h2)
  · by_cases hne : x = e
    · subst hne
      rw [← hcount]
      unfold EntryHeader.setLocks EntryHeader.locks
      rw [load_store_same]
      exact Nat.mod_eq_of_lt hn
    · have hp : x.pointer ≠ e.pointer := fun hp => hne (h.eq_of_pointer hx he hp)
      have h' : ¬ lk' = some x.pointer := fun hl => hp (hlk _ hl)
      have h₀ : ¬ lk = some x.pointer := fun hl => hp (hlk₀ _ hl)
      rw [hlocks x hx hne, h.locks x hx, if_neg h', if_neg h₀]
  · rcases hp with hp | hp
    · exact h.held p (Or.inl hp)
    · obtain rfl := hlk p hp
      exact ⟨e, he, rfl, hF hp, hrg hp⟩

end Base

end CacheServer
