import CacheServer.Library.Tiling
import CacheServer.Model.MemoryQueue

/-!
# The layout of the ring

A slot is the place of an entry in the buffer. The live entries fill one segment
of the buffer, or, after a wrap, an upper segment that ends at a marker and a
lower one that starts at 0. `Ring s es` says that the store `s` holds exactly the
live entries `es`, oldest first.
-/

namespace CacheServer
open EntryHeader

structure Slot where
  offset : Nat
  keySize : Nat
  valueSize : Nat
  deriving DecidableEq, Repr

namespace Slot

def size (e : Slot) : Nat := entryHeaderSize + e.keySize + e.valueSize

def stop (e : Slot) : Nat := e.offset + e.size

def pointer (e : Slot) : Pointer := ringPointer e.offset

theorem header_le (e : Slot) : e.offset + 16 ≤ e.stop := by
  unfold stop size entryHeaderSize
  omega

theorem offset_lt (e : Slot) : e.offset < e.stop := by
  have := e.header_le
  omega

/-- The two entries share no byte. -/
def Apart (a b : Slot) : Prop := a.stop ≤ b.offset ∨ b.stop ≤ a.offset

theorem Apart.symm {a b : Slot} (h : Apart a b) : Apart b a := Or.symm h

end Slot

/-- The header at `e` announces the sizes of `e`, and they do not wrap. -/
structure HeaderAt (m : Memory) (e : Slot) : Prop where
  keySize : keySize m e.pointer = e.keySize
  valueSize : valueSize m e.pointer = e.valueSize
  fits : e.size < 2 ^ 32

structure Segment (m : Memory) (p : Nat) (es : List Slot) (q : Nat) : Prop where
  tiled : Tiled Slot.offset Slot.stop p es q
  headers : ∀ e ∈ es, HeaderAt m e
  inner : ∀ e ∈ es, e.stop ≠ q → endOfBuffer m (ringPointer e.stop) = 0

inductive RingLayout (m : Memory) (capacity r w : Nat) : List Slot → Prop
  | linear {es : List Slot} (all : Segment m r es w) : RingLayout m capacity r w es
  | wrapped {upper lower : List Slot} {marker : Nat} (nonempty : upper ≠ [])
      (high : Segment m r upper marker)
      (marked : endOfBuffer m (ringPointer marker) = 1)
      (inside : marker + entryHeaderSize ≤ capacity)
      (low : Segment m 0 lower w)
      (gap : lower ≠ [] → w + entryHeaderSize < r) :
      RingLayout m capacity r w (upper ++ lower)

structure Ring (s : Store) (es : List Slot) : Prop where
  layout : RingLayout s.memory s.queue.capacityBytes s.queue.readIndex s.queue.writeIndex es
  count : s.queue.entryCount = es.length
  bytes : s.queue.occupiedBytes = (es.map Slot.size).sum
  inside : ∀ e ∈ es, e.stop ≤ s.queue.capacityBytes
  write_le : s.queue.writeIndex ≤ s.queue.capacityBytes
  capacity_lt : s.queue.capacityBytes < 2 ^ 64

/-! ### What a layout depends on -/

theorem HeaderAt.congr {m m' : Memory} {e : Slot} (h : HeaderAt m e)
    (hm : ∀ a, e.offset + 8 ≤ a → a < e.offset + 14 → m' .ring a = m .ring a) :
    HeaderAt m' e where
  keySize := by
    rw [← h.keySize]
    exact load_congr fun a h1 h2 => hm a (by simp only [Slot.pointer, ringPointer] at h1; omega)
      (by simp only [Slot.pointer, ringPointer] at h2; omega)
  valueSize := by
    rw [← h.valueSize]
    exact load_congr fun a h1 h2 => hm a (by simp only [Slot.pointer, ringPointer] at h1; omega)
      (by simp only [Slot.pointer, ringPointer] at h2; omega)
  fits := h.fits

/-- An offset that no entry of `es` reaches across. -/
def Boundary (es : List Slot) (a : Nat) : Prop := ∀ e ∈ es, a ≤ e.offset ∨ e.stop ≤ a

namespace Segment
variable {m m' : Memory} {p q : Nat} {es : List Slot} {e : Slot}

theorem congr (h : Segment m p es q)
    (hm : ∀ e ∈ es, ∀ a, e.offset + 8 ≤ a → a < e.offset + 14 → m' .ring a = m .ring a)
    (hf : ∀ e ∈ es, e.stop ≠ q →
      endOfBuffer m' (ringPointer e.stop) = endOfBuffer m (ringPointer e.stop)) :
    Segment m' p es q where
  tiled := h.tiled
  headers e he := (h.headers e he).congr (hm e he)
  inner e he hq := (hf e he hq).trans (h.inner e he hq)

/- Every inner stop is the start of an entry. -/
theorem congr_starts (h : Segment m p es q)
    (hm : ∀ e ∈ es, ∀ a, e.offset + 8 ≤ a → a < e.offset + 14 → m' .ring a = m .ring a)
    (hf : ∀ x ∈ es, endOfBuffer m' x.pointer = endOfBuffer m x.pointer) :
    Segment m' p es q := by
  refine h.congr hm fun e he hq => ?_
  obtain ⟨x, hx, hxe⟩ := h.tiled.exists_next he hq
  rw [← hxe]
  exact hf x hx

theorem tail (h : Segment m p (e :: es) q) : Segment m e.stop es q where
  tiled := h.tiled.2.2
  headers x hx := h.headers x (List.mem_cons_of_mem _ hx)
  inner x hx hq := h.inner x (List.mem_cons_of_mem _ hx) hq

theorem concat (h : Segment m p es q) (ho : e.offset = q) (hh : HeaderAt m e)
    (hf : endOfBuffer m e.pointer = 0) : Segment m p (es ++ [e]) e.stop where
  tiled := h.tiled.append ⟨ho, by have := e.header_le; omega, rfl⟩
  headers x hx := by
    rcases List.mem_append.mp hx with hx | hx
    · exact h.headers x hx
    · rw [List.mem_singleton.mp hx]
      exact hh
  inner x hx hq := by
    rcases List.mem_append.mp hx with hx | hx
    · by_cases hxq : x.stop = q
      · rw [hxq, ← ho]
        exact hf
      · exact h.inner x hx hxq
    · rw [List.mem_singleton.mp hx] at hq
      exact absurd rfl hq

theorem sum_sizes (h : Segment m p es q) : p + (es.map Slot.size).sum = q := by
  have hs : es.map Slot.size = es.map fun e => e.stop - e.offset :=
    List.map_congr_left fun e _ => by unfold Slot.stop; omega
  rw [hs]
  exact h.tiled.sum_lengths

end Segment

namespace RingLayout
variable {m m' : Memory} {capacity r w : Nat} {es : List Slot} {x y : Slot}

theorem apart (h : RingLayout m capacity r w es) (hx : x ∈ es) (hy : y ∈ es) :
    x = y ∨ x.Apart y := by
  cases h with
  | linear all => exact all.tiled.apart hx hy
  | wrapped nonempty high marked inside low gap =>
    rename_i upper lower marker
    have hcross : ∀ a ∈ upper, ∀ b ∈ lower, b.stop ≤ a.offset := by
      intro a ha b hb
      have h1 := (high.tiled.mem_bounds ha).1
      have h2 := (low.tiled.mem_bounds hb).2.2
      have h3 := gap (List.ne_nil_of_mem hb)
      omega
    rcases List.mem_append.mp hx with hx | hx <;> rcases List.mem_append.mp hy with hy | hy
    · exact high.tiled.apart hx hy
    · exact Or.inr (Or.inr (hcross x hx y hy))
    · exact Or.inr (Or.inl (hcross y hy x hx))
    · exact low.tiled.apart hx hy

theorem boundary (h : RingLayout m capacity r w es) (hx : x ∈ es) : Boundary es x.offset := by
  intro e he
  rcases h.apart he hx with rfl | ha | ha
  · exact Or.inl le_rfl
  · exact Or.inr ha
  · have := x.header_le
    exact Or.inl (by omega)

/- A layout is kept by every change that leaves alone the sizes in the headers of the
entries and the end_of_buffer bit wherever the walk may look for it. -/
theorem congr (h : RingLayout m capacity r w es)
    (hm : ∀ e ∈ es, ∀ a, e.offset + 8 ≤ a → a < e.offset + 14 → m' .ring a = m .ring a)
    (hf : ∀ a, Boundary es a → endOfBuffer m' (ringPointer a) = endOfBuffer m (ringPointer a)) :
    RingLayout m' capacity r w es := by
  have hstart : ∀ x ∈ es, endOfBuffer m' x.pointer = endOfBuffer m x.pointer :=
    fun x hx => hf x.offset (h.boundary hx)
  cases h with
  | linear all => exact linear (all.congr_starts hm hstart)
  | wrapped nonempty high marked inside low gap =>
    rename_i upper lower marker
    have hmarker : Boundary (upper ++ lower) marker := by
      intro e he
      rcases List.mem_append.mp he with he | he
      · exact Or.inr (high.tiled.mem_bounds he).2.2
      · have h1 := (low.tiled.mem_bounds he).2.2
        have h2 := gap (List.ne_nil_of_mem he)
        have h3 := high.tiled.le
        exact Or.inr (by omega)
    refine wrapped nonempty
      (high.congr_starts (fun e he => hm e (List.mem_append_left _ he))
        fun x hx => hstart x (List.mem_append_left _ hx)) ?_ inside
      (low.congr_starts (fun e he => hm e (List.mem_append_right _ he))
        fun x hx => hstart x (List.mem_append_right _ hx)) gap
    rw [hf marker hmarker]
    exact marked

theorem pairwise_apart (h : RingLayout m capacity r w es) : es.Pairwise Slot.Apart := by
  cases h with
  | linear all => exact all.tiled.pairwise.imp Or.inl
  | wrapped nonempty high marked inside low gap =>
    rw [List.pairwise_append]
    refine ⟨high.tiled.pairwise.imp Or.inl, low.tiled.pairwise.imp Or.inl, fun a ha b hb => ?_⟩
    have h1 := (high.tiled.mem_bounds ha).1
    have h2 := (low.tiled.mem_bounds hb).2.2
    have h3 := gap (List.ne_nil_of_mem hb)
    exact Or.inr (by omega)

theorem header (h : RingLayout m capacity r w es) (hx : x ∈ es) : HeaderAt m x := by
  cases h with
  | linear all => exact all.headers x hx
  | wrapped nonempty high marked inside low gap =>
    rcases List.mem_append.mp hx with hx | hx
    · exact high.headers x hx
    · exact low.headers x hx

theorem indexes_of_nil (h : RingLayout m capacity r w []) : r = w := by
  generalize hes : ([] : List Slot) = es at h
  cases h with
  | linear all =>
    subst hes
    exact all.tiled
  | wrapped nonempty high marked inside low gap =>
    exact absurd (List.append_eq_nil_iff.mp hes.symm).1 nonempty

/- Where the oldest entry is not below write_index, the ring has wrapped. -/
theorem upper_of_le (h : RingLayout m capacity r w (x :: es)) (hw : w ≤ r) :
    ∃ upper lower marker, es = upper ++ lower ∧ Segment m r (x :: upper) marker ∧
      endOfBuffer m (ringPointer marker) = 1 ∧ marker + entryHeaderSize ≤ capacity ∧
      Segment m 0 lower w ∧ (lower ≠ [] → w + entryHeaderSize < r) := by
  generalize hxs : x :: es = xs at h
  cases h with
  | linear all =>
    have hlt := all.tiled.lt_of_ne_nil (by rw [← hxs]; simp)
    omega
  | wrapped nonempty high marked inside low gap =>
    rename_i upper lower marker
    cases upper with
    | nil => exact absurd rfl nonempty
    | cons y ys =>
      obtain ⟨rfl, rfl⟩ := List.cons.inj hxs
      exact ⟨ys, lower, marker, rfl, high, marked, inside, low, gap⟩

/- Where the oldest entry is below write_index, it has not. -/
theorem segment_of_lt (h : RingLayout m capacity r w es) (hw : r < w) : Segment m r es w := by
  cases h with
  | linear all => exact all
  | wrapped nonempty high marked inside low gap =>
    rename_i upper lower marker
    by_cases hl : lower = []
    · subst hl
      have hzero : 0 = w := low.tiled
      omega
    · have := gap hl
      omega

theorem setActive (h : RingLayout m capacity r w es) (q : Pointer) (v : Nat)
    (hq : q.block = .ring → Boundary es q.offset) :
    RingLayout (EntryHeader.setActive m q v) capacity r w es := by
  refine h.congr (fun e he a h1 h2 => ?_) fun a _ => endOfBuffer_setActive m q _ v
  apply setActive_outside
  by_cases hb : q.block = .ring
  · refine Or.inr fun ha => ?_
    have hle := e.header_le
    rcases hq hb e he with hbe | hbe <;> omega
  · exact Or.inl (Ne.symm hb)

end RingLayout

theorem Ring.pointer_ne_of_append {s : Store} {es es' : List Slot} {x y : Slot} (h : Ring s (es ++ es'))
    (hx : x ∈ es) (hy : y ∈ es') : y.pointer ≠ x.pointer := by
  intro hp
  have ho : y.offset = x.offset := congrArg Pointer.offset hp
  have hapart := (List.pairwise_append.mp h.layout.pairwise_apart).2.2 x hx y hy
  have h1 := x.header_le
  have h2 := y.header_le
  rcases hapart with h | h <;> omega

theorem Ring.sum_le {s : Store} {es : List Slot} (h : Ring s es) :
    (es.map Slot.size).sum ≤ s.queue.capacityBytes := by
  have hw := h.write_le
  generalize hq : s.queue = q at hw
  have hl := h.layout
  rw [hq] at hl
  cases hl with
  | linear all =>
    have := all.sum_sizes
    omega
  | wrapped nonempty high marked inside low gap =>
    rename_i upper lower marker
    have h1 := high.sum_sizes
    have h2 := low.sum_sizes
    rw [List.map_append, List.sum_append]
    by_cases hl : lower = []
    · subst hl
      simp only [List.map_nil, List.sum_nil] at h2 ⊢
      omega
    · have := gap hl
      omega

end CacheServer
