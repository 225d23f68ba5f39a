import Mathlib.Tactic.Ring
import Mathlib.Data.List.Basic

/-!
# Byte areas and little-endian fields

A byte area is an unbounded block of bytes addressed by offset. Ranges are
read and written as byte lists, and unsigned fields are stored least
significant byte first. The frame lemmas say which offsets a write can reach.
-/

abbrev ByteArea := Nat → UInt8

namespace ByteArea

/-- The `n` bytes from offset `p` on. -/
def read (m : ByteArea) (p : Nat) : Nat → List UInt8
  | 0 => []
  | n + 1 => m p :: read m (p + 1) n

/-- The area after the bytes `bs` were stored from offset `p` on. -/
def write (m : ByteArea) (p : Nat) (bs : List UInt8) : ByteArea := fun a =>
  if p ≤ a then (bs[a - p]?).getD (m a) else m a

/-- Value of a byte list, least significant byte first. -/
def decodeLE : List UInt8 → Nat
  | [] => 0
  | b :: bs => b.toNat + 256 * decodeLE bs

/-- The `n` low bytes of `v`, least significant first. -/
def encodeLE : Nat → Nat → List UInt8
  | 0, _ => []
  | n + 1, v => UInt8.ofNat v :: encodeLE n (v / 256)

def loadLE (m : ByteArea) (p n : Nat) : Nat := decodeLE (m.read p n)

def storeLE (m : ByteArea) (p n v : Nat) : ByteArea := m.write p (encodeLE n v)

/-! ### Ranges -/

@[simp] theorem read_length (m : ByteArea) (p n : Nat) : (m.read p n).length = n := by
  induction n generalizing p with
  | zero => rfl
  | succ n ih => simp only [read, List.length_cons, ih]

theorem read_congr {m m' : ByteArea} {p n : Nat} (h : ∀ a, p ≤ a → a < p + n → m' a = m a) :
    m'.read p n = m.read p n := by
  induction n generalizing p with
  | zero => rfl
  | succ n ih =>
    have hhead : m' p = m p := h p le_rfl (by omega)
    have htail : m'.read (p + 1) n = m.read (p + 1) n :=
      ih fun a h1 h2 => h a (by omega) (by omega)
    simp only [read, hhead, htail]

theorem read_append (m : ByteArea) (p a b : Nat) :
    m.read p (a + b) = m.read p a ++ m.read (p + a) b := by
  induction a generalizing p with
  | zero => simp [read]
  | succ a ih =>
    have hn : a + 1 + b = (a + b) + 1 := by omega
    have hp : p + 1 + a = p + (a + 1) := by omega
    rw [hn]
    simp only [read, ih, List.cons_append, hp]

theorem take_read (m : ByteArea) (p : Nat) {k n : Nat} (h : k ≤ n) :
    (m.read p n).take k = m.read p k := by
  obtain ⟨d, rfl⟩ := Nat.exists_eq_add_of_le h
  rw [read_append, List.take_append_of_le_length (by simp), List.take_of_length_le (by simp)]

/-- A range after its front part has been taken. -/
theorem read_of_take {m : ByteArea} {p n k : Nat} {bs : List UInt8} (h : bs = (m.read p n).take k) :
    m.read p n = bs ++ m.read (p + bs.length) (n - bs.length) := by
  have hle : bs.length ≤ n := by
    rw [h, List.length_take, read_length]
    exact Nat.min_le_right ..
  have hbs : bs = m.read p bs.length := by
    rw [← take_read m p hle, h, List.length_take, ← List.take_take, List.take_length]
  have hn : n = bs.length + (n - bs.length) := by omega
  calc m.read p n = m.read p bs.length ++ m.read (p + bs.length) (n - bs.length) := by
        rw [← read_append, ← hn]
    _ = bs ++ m.read (p + bs.length) (n - bs.length) := by rw [← hbs]

theorem write_outside (m : ByteArea) (p : Nat) (bs : List UInt8) {a : Nat}
    (h : a < p ∨ p + bs.length ≤ a) : m.write p bs a = m a := by
  unfold write
  split
  · rw [List.getElem?_eq_none (by omega)]; rfl
  · rfl

theorem write_append (m : ByteArea) (p : Nat) (as bs : List UInt8) :
    m.write p (as ++ bs) = (m.write p as).write (p + as.length) bs := by
  funext a
  by_cases h1 : p + as.length ≤ a
  · have hidx : a - p - as.length = a - (p + as.length) := by omega
    have hlo : p ≤ a := by omega
    rw [write, if_pos hlo, write, if_pos h1, write_outside m p as (Or.inr h1),
      List.getElem?_append_right (by omega), hidx]
  · rw [write_outside _ (p + as.length) bs (Or.inl (by omega))]
    by_cases h2 : p ≤ a
    · rw [write, if_pos h2, write, if_pos h2, List.getElem?_append_left (by omega)]
    · rw [write_outside _ p _ (Or.inl (by omega)), write_outside _ p _ (Or.inl (by omega))]

theorem read_write_disjoint (m : ByteArea) (p q n : Nat) (bs : List UInt8)
    (h : q + n ≤ p ∨ p + bs.length ≤ q) : (m.write p bs).read q n = m.read q n :=
  read_congr fun a h1 h2 => write_outside m p bs (by omega)

theorem read_write_same (m : ByteArea) (p : Nat) (bs : List UInt8) :
    (m.write p bs).read p bs.length = bs := by
  induction bs generalizing m p with
  | nil => rfl
  | cons b bs ih =>
    have hsplit : m.write p (b :: bs) = (m.write p [b]).write (p + 1) bs :=
      write_append m p [b] bs
    have hb : m.write p [b] p = b := by simp [write]
    have hhead : m.write p (b :: bs) p = b := by
      rw [hsplit, write_outside _ _ _ (Or.inl (by omega)), hb]
    simp only [List.length_cons, read, hhead]
    rw [hsplit, ih]

/-- Bytes written behind `n` others. -/
theorem read_write_next (m : ByteArea) (p n : Nat) (bs : List UInt8) :
    (m.write (p + n) bs).read p (n + bs.length) = m.read p n ++ bs := by
  rw [read_append, read_write_same, read_write_disjoint m (p + n) p n bs (Or.inl le_rfl)]

/-! ### Little-endian fields -/

@[simp] theorem encodeLE_length (n v : Nat) : (encodeLE n v).length = n := by
  induction n generalizing v with
  | zero => rfl
  | succ n ih => simp only [encodeLE, List.length_cons, ih]

theorem decodeLE_lt (bs : List UInt8) : decodeLE bs < 256 ^ bs.length := by
  induction bs with
  | nil => simp [decodeLE]
  | cons b bs ih =>
    have hb : b.toNat < 256 := b.toNat_lt
    simp only [decodeLE, List.length_cons, pow_succ']
    omega

theorem decodeLE_encodeLE (n v : Nat) : decodeLE (encodeLE n v) = v % 256 ^ n := by
  induction n generalizing v with
  | zero => simp [encodeLE, decodeLE, Nat.mod_one]
  | succ n ih =>
    have hhead : (UInt8.ofNat v).toNat = v % 256 := by simp
    rw [encodeLE, decodeLE, ih, hhead, pow_succ', Nat.mod_mul]

theorem encodeLE_decodeLE (bs : List UInt8) : encodeLE bs.length (decodeLE bs) = bs := by
  induction bs with
  | nil => rfl
  | cons b bs ih =>
    have hb : b.toNat < 256 := b.toNat_lt
    have hhead : UInt8.ofNat (b.toNat + 256 * decodeLE bs) = b := by
      apply UInt8.toNat_inj.mp
      simp
    have htail : (b.toNat + 256 * decodeLE bs) / 256 = decodeLE bs := by omega
    simp only [List.length_cons, decodeLE, encodeLE, hhead, htail, ih]

theorem loadLE_lt (m : ByteArea) (p n : Nat) : m.loadLE p n < 256 ^ n := by
  have h := decodeLE_lt (m.read p n)
  rwa [read_length] at h

theorem loadLE_congr {m m' : ByteArea} {p n : Nat} (h : ∀ a, p ≤ a → a < p + n → m' a = m a) :
    m'.loadLE p n = m.loadLE p n := by
  rw [loadLE, loadLE, read_congr h]

theorem storeLE_outside (m : ByteArea) (p n v : Nat) {a : Nat} (h : a < p ∨ p + n ≤ a) :
    m.storeLE p n v a = m a :=
  write_outside m p _ (by simpa using h)

theorem loadLE_storeLE_same (m : ByteArea) (p n v : Nat) :
    (m.storeLE p n v).loadLE p n = v % 256 ^ n := by
  have h := read_write_same m p (encodeLE n v)
  rw [encodeLE_length] at h
  rw [loadLE, storeLE, h, decodeLE_encodeLE]

theorem loadLE_storeLE_disjoint (m : ByteArea) (p q n k v : Nat) (h : q + k ≤ p ∨ p + n ≤ q) :
    (m.storeLE p n v).loadLE q k = m.loadLE q k :=
  loadLE_congr fun a h1 h2 => storeLE_outside m p n v (by omega)

end ByteArea
