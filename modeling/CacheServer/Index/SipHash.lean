import CacheServer.Model.SipHash
import Mathlib.Data.Nat.Bitwise
import Mathlib.Tactic.IntervalCases
import Mathlib.Tactic.Ring

/-!
# SIP64 is SipHash-2-4

The message is padded with zeros and its length to whole words; each word is
absorbed by two rounds, and four rounds end the hash. The loop of `SIP64` takes
the whole words of the message, and its switch builds the last one from the bytes
that are left.
-/

namespace CacheServer.SipHash
open ByteArea

/-! ### SipHash-2-4 -/

/-- The message with its padding. -/
def padded (data : List UInt8) : List UInt8 :=
  data ++ List.replicate (7 - data.length % 8) 0 ++ [UInt8.ofNat data.length]

/-- The first `n` words of a byte list. -/
def words (n : Nat) (bytes : List UInt8) : List UInt64 :=
  (List.range n).map fun k => UInt64.ofNat (decodeLE ((bytes.drop (8 * k)).take 8))

def start (k0 k1 : UInt64) : State :=
  ⟨0x736f6d6570736575 ^^^ k0, 0x646f72616e646f6d ^^^ k1, 0x6c7967656e657261 ^^^ k0,
    0x7465646279746573 ^^^ k1⟩

def finish (s : State) : UInt64 :=
  let s := sipRound (sipRound (sipRound (sipRound { s with v2 := s.v2 ^^^ 0xff })))
  s.v0 ^^^ s.v1 ^^^ s.v2 ^^^ s.v3

def sipHash24 (k0 k1 : UInt64) (data : List UInt8) : UInt64 :=
  finish ((words (data.length / 8 + 1) (padded data)).foldl absorb (start k0 k1))

/-! ### Words -/

theorem toNat_byte (b : UInt8) {k : Nat} (hk : k < 8) :
    (b.toUInt64 <<< UInt64.ofNat (8 * k)).toNat = b.toNat * 256 ^ k := by
  have hb : b.toNat < 2 ^ 8 := b.toNat_lt
  have hs : (UInt64.ofNat (8 * k)).toNat = 8 * k := UInt64.toNat_ofNat_of_lt' (by
    change 8 * k < 2 ^ 64
    omega)
  have hp : 2 ^ (8 * k) ≤ 2 ^ 56 := Nat.pow_le_pow_right (by omega) (by omega)
  have hlt : b.toNat * 2 ^ (8 * k) < 2 ^ 64 := by
    calc b.toNat * 2 ^ (8 * k) ≤ b.toNat * 2 ^ 56 := Nat.mul_le_mul_left _ hp
      _ < 2 ^ 8 * 2 ^ 56 := by omega
      _ = 2 ^ 64 := by norm_num
  have hmod : 8 * k % 64 = 8 * k := Nat.mod_eq_of_lt (by omega)
  rw [UInt64.toNat_shiftLeft, UInt8.toNat_toUInt64, hs, hmod, Nat.shiftLeft_eq,
    Nat.mod_eq_of_lt hlt, Nat.pow_mul]

/-- A byte above the bits of a word. -/
theorem or_high {x : UInt64} (b : UInt8) {k : Nat} (hk : k < 8) (hx : x.toNat < 256 ^ k) :
    (x ||| b.toUInt64 <<< UInt64.ofNat (8 * k)).toNat = x.toNat + b.toNat * 256 ^ k := by
  have hpow : 256 ^ k = 2 ^ (8 * k) := by rw [Nat.pow_mul]
  rw [UInt64.toNat_or, toNat_byte b hk, Nat.or_comm, hpow, ← Nat.shiftLeft_eq,
    ← Nat.shiftLeft_add_eq_or_of_lt (hpow ▸ hx), Nat.add_comm]

/-- A byte below the bits of a word. -/
theorem or_low {x : UInt64} (b : UInt8) {k y : Nat} (hk : k < 8)
    (hx : x.toNat = y * 256 ^ (k + 1)) :
    (x ||| b.toUInt64 <<< UInt64.ofNat (8 * k)).toNat = x.toNat + b.toNat * 256 ^ k := by
  have hb : b.toNat < 256 := b.toNat_lt
  have hpow : 256 ^ (k + 1) = 2 ^ (8 * (k + 1)) := by rw [Nat.pow_mul]
  have hlt : b.toNat * 256 ^ k < 2 ^ (8 * (k + 1)) := by
    rw [← hpow, Nat.pow_succ, Nat.mul_comm (256 ^ k)]
    exact Nat.mul_lt_mul_of_pos_right hb (by positivity)
  rw [UInt64.toNat_or, toNat_byte b hk, hx, hpow, ← Nat.shiftLeft_eq y,
    ← Nat.shiftLeft_add_eq_or_of_lt hlt]

theorem decodeLE_append_byte (bs : List UInt8) (b : UInt8) :
    decodeLE (bs ++ [b]) = decodeLE bs + b.toNat * 256 ^ bs.length := by
  induction bs with
  | nil => simp [decodeLE]
  | cons c bs ih =>
    rw [List.cons_append, decodeLE, decodeLE, ih, List.length_cons, Nat.pow_succ]
    ring

theorem read_succ (p : ByteArea) (a n : Nat) : p.read a (n + 1) = p.read a n ++ [p (a + n)] := by
  rw [read_append]
  rfl

/-- The first `n` bytes, each above the ones before it. -/
def orUp (p : ByteArea) : Nat → UInt64
  | 0 => 0
  | n + 1 => orUp p n ||| (p n).toUInt64 <<< UInt64.ofNat (8 * n)

/-- The first `n` bytes, each below the ones after it. -/
def orDown (p : ByteArea) : Nat → UInt64 → UInt64
  | 0, b => b
  | n + 1, b => orDown p n (b ||| (p n).toUInt64 <<< UInt64.ofNat (8 * n))

theorem toNat_orUp (p : ByteArea) {n : Nat} (hn : n ≤ 8) : (orUp p n).toNat = p.loadLE 0 n := by
  induction n with
  | zero => rfl
  | succ n ih =>
    have ih := ih (by omega)
    have hlt := p.loadLE_lt 0 n
    rw [orUp, or_high (p n) (by omega) (by rw [ih]; exact hlt), ih, loadLE, loadLE, read_succ,
      decodeLE_append_byte, read_length, Nat.zero_add]

theorem toNat_orDown (p : ByteArea) {n y : Nat} {b : UInt64} (hn : n ≤ 8)
    (hb : b.toNat = y * 256 ^ n) : (orDown p n b).toNat = b.toNat + p.loadLE 0 n := by
  induction n generalizing y b with
  | zero => rfl
  | succ n ih =>
    have hor := or_low (p n) (by omega) hb
    have hmul : (b ||| (p n).toUInt64 <<< UInt64.ofNat (8 * n)).toNat =
        (y * 256 + (p n).toNat) * 256 ^ n := by
      rw [hor, hb, Nat.pow_succ]
      ring
    rw [orDown, ih (by omega) hmul, hor, loadLE, loadLE, read_succ, decodeLE_append_byte,
      read_length, Nat.zero_add]
    ring

theorem u8to64_eq (p : ByteArea) : u8to64 p = UInt64.ofNat (p.loadLE 0 8) := by
  have horUp : u8to64 p = orUp p 8 := by
    simp [u8to64, orUp]
  rw [horUp, ← toNat_orUp p (Nat.le_refl 8), UInt64.ofNat_toNat]

theorem tailSwitch_eq (p : ByteArea) {left : Nat} (hleft : left ≤ 7) (b : UInt64) :
    tailSwitch p left b = orDown p left b := by
  interval_cases left
  all_goals simp [tailSwitch, orDown]

/-! ### Bytes -/

theorem read_getD (l : List UInt8) {a n : Nat} (h : a + n ≤ l.length) :
    ByteArea.read (fun i => l.getD i 0) a n = (l.drop a).take n := by
  induction n generalizing a with
  | zero => rfl
  | succ n ih =>
    have hlt : a < l.length := by omega
    rw [ByteArea.read, ih (by omega), List.drop_eq_getElem_cons hlt, List.take_succ_cons,
      List.getD_eq_getElem _ _ hlt]

theorem read_shift (p : ByteArea) (d a n : Nat) :
    ByteArea.read (fun i => p (d + i)) a n = p.read (d + a) n := by
  induction n generalizing a with
  | zero => rfl
  | succ n ih => rw [ByteArea.read, ByteArea.read, ih, Nat.add_assoc]

theorem u64to8_eq (v : UInt64) : u64to8 v = encodeLE 8 v.toNat := by
  have hlt := v.toNat_lt
  simp only [u64to8, u32to8, encodeLE, List.cons_append, List.nil_append, List.cons.injEq,
    ← UInt8.toNat_inj, UInt32.toNat_toUInt8, UInt32.toNat_shiftRight, UInt64.toNat_toUInt32,
    UInt64.toNat_shiftRight, UInt8.toNat_ofNat', Nat.shiftRight_eq_div_pow]
  simp
  omega

theorem u8to64_u64to8 (v : UInt64) : (u8to64 fun i => (u64to8 v).getD i 0) = v := by
  have hlen : (u64to8 v).length = 8 := rfl
  rw [u8to64_eq, loadLE, read_getD _ (Nat.le_of_eq hlen.symm), List.drop_zero,
    List.take_of_length_le (Nat.le_of_eq hlen), u64to8_eq, decodeLE_encodeLE]
  have hlt : v.toNat < 256 ^ 8 := v.toNat_lt
  rw [Nat.mod_eq_of_lt hlt, UInt64.ofNat_toNat]

/-! ### The hash -/

/-- The word of the eight bytes from offset `8 * k` on. -/
def wordAt (data : ByteArea) (k : Nat) : UInt64 := UInt64.ofNat (data.loadLE (8 * k) 8)

theorem wordLoop_eq (data : ByteArea) {q j fuel : Nat} (s : State) (hj : j ≤ q)
    (hfuel : q - j < fuel) : wordLoop data (8 * q) fuel (8 * j) s =
      .ok (((List.range' j (q - j)).map (wordAt data)).foldl absorb s) := by
  induction fuel generalizing j s with
  | zero => omega
  | succ fuel ih =>
    rw [wordLoop]
    by_cases hjq : j = q
    · subst hjq
      simp
    · have hne : 8 * j ≠ 8 * q := by omega
      obtain ⟨d, hd⟩ : ∃ d, q - j = d + 1 := ⟨q - j - 1, by omega⟩
      have hd' : q - (j + 1) = d := by omega
      have hword : (u8to64 fun i => data (8 * j + i)) = wordAt data j := by
        rw [u8to64_eq, wordAt, loadLE, read_shift]
        rfl
      rw [if_pos hne, ← Nat.mul_succ, ih _ (by omega) (by omega), hd, hd', List.range'_succ,
        List.map_cons, List.foldl_cons, hword]

theorem padded_length (data : List UInt8) : (padded data).length = 8 * (data.length / 8 + 1) := by
  simp only [padded, List.length_append, List.length_replicate, List.length_singleton]
  omega

theorem decodeLE_append (as bs : List UInt8) :
    decodeLE (as ++ bs) = decodeLE as + decodeLE bs * 256 ^ as.length := by
  induction as with
  | nil => simp [decodeLE]
  | cons a as ih =>
    rw [List.cons_append, decodeLE, decodeLE, ih, List.length_cons, Nat.pow_succ]
    ring

theorem decodeLE_zeros (n : Nat) : decodeLE (List.replicate n 0) = 0 := by
  induction n with
  | zero => rfl
  | succ n ih => rw [List.replicate_succ, decodeLE, ih]; rfl

/-- The bytes after the whole words, above them the length. -/
theorem decodeLE_last (data : List UInt8) :
    decodeLE (((padded data).drop (8 * (data.length / 8))).take 8) =
      decodeLE (data.drop (8 * (data.length / 8))) + data.length % 256 * 256 ^ 7 := by
  have hlen := padded_length data
  have hrest : (data.drop (8 * (data.length / 8))).length = data.length % 8 := by
    rw [List.length_drop]
    omega
  have hseven : data.length % 8 + (7 - data.length % 8) = 7 := by omega
  have hone : decodeLE [UInt8.ofNat data.length] = data.length % 256 := by
    simp [decodeLE]
  rw [List.take_of_length_le (by rw [List.length_drop]; omega), padded, List.append_assoc,
    List.drop_append_of_le_length (by omega), decodeLE_append, decodeLE_append, decodeLE_zeros,
    List.length_replicate, hrest, hone, Nat.zero_add, Nat.mul_assoc, ← Nat.pow_add,
    Nat.add_comm (7 - _), hseven]

/-- The words of the padded message: those of the message, and the last one. -/
theorem words_padded (data : List UInt8) :
    words (data.length / 8 + 1) (padded data) =
      (List.range' 0 (data.length / 8)).map (wordAt fun i => data.getD i 0) ++
        [UInt64.ofNat (decodeLE (data.drop (8 * (data.length / 8))) +
          data.length % 256 * 256 ^ 7)] := by
  have hwhole : ∀ k ∈ List.range' 0 (data.length / 8),
      UInt64.ofNat (decodeLE (((padded data).drop (8 * k)).take 8)) =
        wordAt (fun i => data.getD i 0) k := by
    intro k hk
    have hlt : k < data.length / 8 := by
      have := List.mem_range'_1.mp hk
      omega
    have hle : 8 * k + 8 ≤ data.length := by omega
    rw [wordAt, loadLE, read_getD data hle, padded, List.append_assoc,
      List.drop_append_of_le_length (by omega), List.take_append_of_le_length]
    rw [List.length_drop]
    omega
  unfold words
  rw [List.range_succ, List.map_append, List.range_eq_range', List.map_congr_left hwhole,
    List.map_singleton, decodeLE_last]

theorem toNat_length (n : Nat) : (UInt64.ofNat n <<< 56).toNat = n % 256 * 256 ^ 7 := by
  have hs : (56 : UInt64).toNat % 64 = 56 := rfl
  rw [UInt64.toNat_shiftLeft, hs, UInt64.toNat_ofNat', Nat.shiftLeft_eq]
  omega

/-- The switch builds the last word. -/
theorem tail_eq (data : List UInt8) :
    tailSwitch (fun i => data.getD (8 * (data.length / 8) + i) 0) (data.length % 8)
        (UInt64.ofNat data.length <<< 56) =
      UInt64.ofNat (decodeLE (data.drop (8 * (data.length / 8))) +
        data.length % 256 * 256 ^ 7) := by
  have hleft : data.length % 8 ≤ 7 := by omega
  have hmul : (UInt64.ofNat data.length <<< 56).toNat =
      data.length % 256 * 256 ^ (7 - data.length % 8) * 256 ^ (data.length % 8) := by
    rw [toNat_length, Nat.mul_assoc, ← Nat.pow_add]
    congr 2
    omega
  have hrest : ByteArea.read (fun i => data.getD (8 * (data.length / 8) + i) 0) 0
      (data.length % 8) = data.drop (8 * (data.length / 8)) := by
    rw [read_shift (fun i => data.getD i 0), read_getD data (by omega), Nat.add_zero,
      List.take_of_length_le]
    rw [List.length_drop]
    omega
  have hdown := toNat_orDown (fun i => data.getD (8 * (data.length / 8) + i) 0)
    (hleft.trans (Nat.le_succ 7)) hmul
  rw [toNat_length, loadLE, hrest] at hdown
  rw [tailSwitch_eq _ hleft, Nat.add_comm, ← hdown, UInt64.ofNat_toNat]

/-- `hashmap_sip` -/
theorem hashmapSip_eq (data : List UInt8) (seed0 seed1 : UInt64) :
    hashmapSip data seed0 seed1 = .ok (sipHash24 seed0 seed1 data) := by
  have hstop : data.length - data.length % 8 = 8 * (data.length / 8) := by omega
  have hloop := wordLoop_eq (fun i => data.getD i 0) (start seed0 seed1)
    (Nat.zero_le (data.length / 8)) (show _ < data.length + 1 by omega)
  rw [Nat.mul_zero, Nat.sub_zero] at hloop
  unfold start at hloop
  simp only [hashmapSip, sip64, u8to64_u64to8, hstop, tail_eq, hloop, sipHash24, finish,
    words_padded, List.foldl_append, List.foldl_cons, List.foldl_nil, start]

end CacheServer.SipHash
