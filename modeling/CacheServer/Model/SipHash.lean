import CacheServer.Model.EntryHeader

/-!
# The hash of a key (hashmap.c)

`SIP64` on a pointer, which is a function from offsets to bytes. Integers are the
C types; loads and stores of them are little-endian.
-/

namespace CacheServer.SipHash

structure State where
  v0 : UInt64
  v1 : UInt64
  v2 : UInt64
  v3 : UInt64
  deriving DecidableEq, Repr

/-- `U8TO64_LE` -/
def u8to64 (p : Nat → UInt8) : UInt64 :=
  (p 0).toUInt64 ||| (p 1).toUInt64 <<< 8 ||| (p 2).toUInt64 <<< 16 ||| (p 3).toUInt64 <<< 24 |||
    (p 4).toUInt64 <<< 32 ||| (p 5).toUInt64 <<< 40 ||| (p 6).toUInt64 <<< 48 |||
    (p 7).toUInt64 <<< 56

/-- `U32TO8_LE` -/
def u32to8 (v : UInt32) : List UInt8 :=
  [v.toUInt8, (v >>> 8).toUInt8, (v >>> 16).toUInt8, (v >>> 24).toUInt8]

/-- `U64TO8_LE` -/
def u64to8 (v : UInt64) : List UInt8 := u32to8 v.toUInt32 ++ u32to8 (v >>> 32).toUInt32

/-- `ROTL` -/
def rotl (x b : UInt64) : UInt64 := x <<< b ||| x >>> (64 - b)

/-- `SIPROUND` -/
def sipRound (s : State) : State :=
  let v0 := s.v0 + s.v1
  let v1 := rotl s.v1 13
  let v1 := v1 ^^^ v0
  let v0 := rotl v0 32
  let v2 := s.v2 + s.v3
  let v3 := rotl s.v3 16
  let v3 := v3 ^^^ v2
  let v0 := v0 + v3
  let v3 := rotl v3 21
  let v3 := v3 ^^^ v0
  let v2 := v2 + v1
  let v1 := rotl v1 17
  let v1 := v1 ^^^ v2
  let v2 := rotl v2 32
  ⟨v0, v1, v2, v3⟩

/-- v3 ^= m; SIPROUND; SIPROUND; v0 ^= m -/
def absorb (s : State) (m : UInt64) : State :=
  let s := sipRound (sipRound { s with v3 := s.v3 ^^^ m })
  { s with v0 := s.v0 ^^^ m }

/-- The loop over the whole words; `p` is the offset of `in`. -/
def wordLoop (data : Nat → UInt8) (stop : Nat) : Nat → Nat → State → Except Fault State
  | 0, _, _ => .error .outOfFuel
  | fuel + 1, p, s =>
    if p ≠ stop then
      wordLoop data stop fuel (p + 8) (absorb s (u8to64 fun i => data (p + i)))
    else .ok s

/-- The switch over the bytes that are left. Its cases fall through. -/
def tailSwitch (tail : Nat → UInt8) (left : Nat) (b : UInt64) : UInt64 :=
  let b := if 7 ≤ left then b ||| (tail 6).toUInt64 <<< 48 else b
  let b := if 6 ≤ left then b ||| (tail 5).toUInt64 <<< 40 else b
  let b := if 5 ≤ left then b ||| (tail 4).toUInt64 <<< 32 else b
  let b := if 4 ≤ left then b ||| (tail 3).toUInt64 <<< 24 else b
  let b := if 3 ≤ left then b ||| (tail 2).toUInt64 <<< 16 else b
  let b := if 2 ≤ left then b ||| (tail 1).toUInt64 <<< 8 else b
  if 1 ≤ left then b ||| (tail 0).toUInt64 else b

/-- `SIP64` -/
def sip64 (data : Nat → UInt8) (inlen : Nat) (seed0 seed1 : UInt64) : Except Fault UInt64 :=
  let k0 := u8to64 fun i => (u64to8 seed0).getD i 0
  let k1 := u8to64 fun i => (u64to8 seed1).getD i 0
  let v3 := 0x7465646279746573 ^^^ k1
  let v2 := 0x6c7967656e657261 ^^^ k0
  let v1 := 0x646f72616e646f6d ^^^ k1
  let v0 := 0x736f6d6570736575 ^^^ k0
  let stop := inlen - inlen % 8
  match wordLoop data stop (inlen + 1) 0 ⟨v0, v1, v2, v3⟩ with
  | .error fault => .error fault
  | .ok s =>
    let left := inlen % 8
    let b := tailSwitch (fun i => data (stop + i)) left ((UInt64.ofNat inlen) <<< 56)
    let s := absorb s b
    let s := { s with v2 := s.v2 ^^^ 0xff }
    let s := sipRound (sipRound (sipRound (sipRound s)))
    let b := s.v0 ^^^ s.v1 ^^^ s.v2 ^^^ s.v3
    .ok (u8to64 fun i => (u64to8 b).getD i 0)

/-- `hashmap_sip` -/
def hashmapSip (data : List UInt8) (seed0 seed1 : UInt64) : Except Fault UInt64 :=
  sip64 (fun i => data.getD i 0) data.length seed0 seed1

end CacheServer.SipHash
