import CacheServer.Index.KeyCompare
import CacheServer.Library.KeyedList
import Mathlib.Logic.Function.Basic

/-!
# The index as a map from keys to entries

The reference is a function from byte strings to entries. `KeyRun` puts any calls
of entry_hash_map.c, with keys in a given set, beside it; between two calls the
entries may change in anything but the keys of the stored ones. The index
implements the map exactly if the hash separates the keys that
`entry_compare` confuses.
-/

namespace CacheServer
open EntryHeader

inductive KeyCall where
  | put (entry : Pointer) (oom : Bool)
  | get (entry : Pointer)
  | delete (entry : Pointer)
  deriving DecidableEq, Repr

inductive IndexAnswer where
  | put (failed : Bool)
  | get (entry : Option Pointer)
  | delete
  deriving DecidableEq, Repr

/-- What the index is for. -/
abbrev KeyMap := List UInt8 → Option Pointer

/-- `active` cleared in the entry, if there is one. -/
def clear : Option Pointer → Memory → Memory
  | none, m => m
  | some p, m => setActive m p 0

/-- The flags of the entry `p` lie outside key_size and key of the entry `q`. -/
def FlagOutside (m : Memory) (p q : Pointer) : Prop :=
  p.block = q.block →
    p.offset < q.offset + 12 ∨ q.offset + entryHeaderSize + keySize m q ≤ p.offset

namespace KeyCall

def entry : KeyCall → Pointer
  | put p _ | get p | delete p => p

def apply : KeyCall → Hashmap × Memory → IndexAnswer × Hashmap × Memory
  | put p oom, (h, m) =>
    let (failed, h, m) := entryHashMapPut h m oom p
    (.put failed, h, m)
  | get p, (h, m) => (.get (entryHashMapGet h m p), h, m)
  | delete p, (h, m) =>
    let (h, m) := entryHashMapDelete h m p
    (.delete, h, m)

/-- The call on the reference, for an entry with the key `k`. -/
def reference (k : List UInt8) : KeyCall → KeyMap → IndexAnswer × KeyMap
  | put p oom, M => if oom then (.put true, M) else (.put false, Function.update M k (some p))
  | get _, M => (.get (M k), M)
  | delete _, M => (.delete, Function.update M k none)

/-- The entry that the call takes out of the map. -/
def displaced (k : List UInt8) : KeyCall → KeyMap → Option Pointer
  | put _ oom, M => if oom then none else M k
  | get _, _ => none
  | delete _, M => M k

/-- An entry that is put overlaps no stored one. -/
def Apart : KeyCall → Hashmap → Memory → Prop
  | put p _, h, m => ∀ item ∈ h.items, FlagOutside m p item.2 ∧ FlagOutside m item.2 p
  | get _, _, _ | delete _, _, _ => True

/-- The call answers as the reference does and clears `active` in the displaced entry only. -/
def Implements (call : KeyCall) (M : KeyMap) (h : Hashmap) (m : Memory) : Prop :=
  (call.apply (h, m)).1 = (call.reference (key m call.entry) M).1 ∧
    (call.apply (h, m)).2.2 = clear (call.displaced (key m call.entry) M) m

end KeyCall

inductive KeyRun (hash : List UInt8 → Nat) (keys : Set (List UInt8)) :
    KeyMap → Hashmap → Memory → Prop
  | opened (memory : Memory) : KeyRun hash keys (fun _ => none) ⟨hash, []⟩ memory
  | changed {M : KeyMap} {h : Hashmap} {m : Memory} (memory : Memory) (run : KeyRun hash keys M h m)
      (same : ∀ item ∈ h.items, key memory item.2 = key m item.2) : KeyRun hash keys M h memory
  | called {M : KeyMap} {h : Hashmap} {m : Memory} (call : KeyCall) (run : KeyRun hash keys M h m)
      (mem : key m call.entry ∈ keys) (apart : call.Apart h m) :
      KeyRun hash keys (call.reference (key m call.entry) M).2 (call.apply (h, m)).2.1
        (call.apply (h, m)).2.2

/-- What a run keeps. -/
structure Stored (hash : List UInt8 → Nat) (keys : Set (List UInt8)) (M : KeyMap) (h : Hashmap)
    (m : Memory) : Prop where
  hash_eq : h.hash = hash
  keyed : ∀ item ∈ h.items, item.1 = hash (key m item.2) ∧ key m item.2 ∈ keys
  distinct : DistinctKeys (fun item => key m item.2) h.items
  reference : ∀ k p, M k = some p ↔ ∃ item ∈ h.items, item.2 = p ∧ key m p = k
  apart : ∀ x ∈ h.items, ∀ y ∈ h.items, FlagOutside m x.2 y.2

section
variable {hash : List UInt8 → Nat} {keys : Set (List UInt8)} {M : KeyMap} {h : Hashmap}
  {m m' : Memory} {p q : Pointer} {item : Nat × Pointer}

theorem key_length (m : Memory) (p : Pointer) : (key m p).length = keySize m p := by
  simp [key, Memory.read]

theorem key_length_lt (m : Memory) (p : Pointer) : (key m p).length < 2 ^ 16 := by
  rw [key_length]
  exact keySize_lt m p

theorem key_setActive (h : FlagOutside m p q) (v : Nat) : key (setActive m p v) q = key m q := by
  have hout : ∀ a, q.offset + 12 ≤ a → a < q.offset + entryHeaderSize + keySize m q →
      setActive m p v q.block a = m q.block a := by
    intro a h1 h2
    refine setActive_outside m p v ?_
    by_cases hb : q.block = p.block
    · right
      rcases h hb.symm with ho | ho
      · omega
      · omega
    · exact Or.inl hb
  have hsize : keySize (setActive m p v) q = keySize m q := by
    refine load_congr fun a h1 h2 => hout a h1 ?_
    unfold entryHeaderSize
    omega
  unfold key
  rw [hsize]
  refine Memory.read_congr fun a h1 h2 => hout a ?_ h2
  change q.offset + 16 ≤ a at h1
  omega

/-- The test of hashmap.c is a comparison of keys, where the hash separates them. -/
theorem Stored.found_iff (hs : Stored hash keys M h m) (hsep : Separates hash keys)
    (hp : key m p ∈ keys) (hitem : item ∈ h.items) :
    h.found m p item = true ↔ key m item.2 = key m p := by
  obtain ⟨hhash, hmem⟩ := hs.keyed item hitem
  simp only [Hashmap.found, entryHash, entryCompare, hs.hash_eq, decide_eq_true_eq]
  constructor
  · rintro ⟨heq, hcompare⟩
    by_contra hne
    have hconfused := (keyCompare_eq_zero_iff (Ne.symm hne)).mp hcompare
    refine hsep _ hp _ hmem (key_length_lt m p) (key_length_lt m item.2) hconfused ?_
    rw [← heq, hhash]
  · intro heq
    rw [hhash, heq]
    exact ⟨rfl, keyCompare_self _⟩

theorem Stored.find_eq (hs : Stored hash keys M h m) (hsep : Separates hash keys)
    (hp : key m p ∈ keys) : (h.items.find? (h.found m p)).map Prod.snd = M (key m p) := by
  have hfound : ∀ item ∈ h.items, h.found m p item = true ↔ key m item.2 = key m p :=
    fun item hitem => hs.found_iff hsep hp hitem
  cases hM : M (key m p) with
  | none =>
    have hnone : h.items.find? (h.found m p) = none := by
      rw [List.find?_eq_none]
      intro item hitem hf
      have hsome := (hs.reference (key m p) item.2).mpr ⟨item, hitem, rfl, (hfound item hitem).mp hf⟩
      rw [hM] at hsome
      cases hsome
    rw [hnone]
    rfl
  | some q =>
    obtain ⟨item, hitem, hq, hk⟩ := (hs.reference (key m p) q).mp hM
    have hfind := hs.distinct.find? hfound hitem (by rw [hq]; exact hk)
    rw [hfind]
    exact congrArg some hq

theorem Stored.changed (hs : Stored hash keys M h m)
    (same : ∀ item ∈ h.items, key m' item.2 = key m item.2) : Stored hash keys M h m' where
  hash_eq := hs.hash_eq
  keyed item hitem := by
    rw [same item hitem]
    exact hs.keyed item hitem
  distinct := hs.distinct.congr same
  reference k p := by
    rw [hs.reference k p]
    constructor
    · rintro ⟨item, hitem, rfl, hk⟩
      exact ⟨item, hitem, rfl, (same item hitem).trans hk⟩
    · rintro ⟨item, hitem, rfl, hk⟩
      exact ⟨item, hitem, rfl, (same item hitem).symm.trans hk⟩
  apart x hx y hy hb := by
    have hsize : keySize m' y.2 = keySize m y.2 := by
      rw [← key_length, ← key_length, same y hy]
    rw [hsize]
    exact hs.apart x hx y hy hb

theorem Stored.erased (hs : Stored hash keys M h m) (hsep : Separates hash keys)
    (hp : key m p ∈ keys) :
    Stored hash keys (Function.update M (key m p) none)
      { h with items := h.items.eraseP (h.found m p) } m := by
  have hmem : ∀ item, item ∈ h.items.eraseP (h.found m p) ↔
      item ∈ h.items ∧ key m item.2 ≠ key m p := fun item =>
    hs.distinct.mem_eraseP fun item hitem => hs.found_iff hsep hp hitem
  refine ⟨hs.hash_eq, fun item hitem => hs.keyed item ((hmem item).mp hitem).1,
    hs.distinct.sublist List.eraseP_sublist, fun k q => ?_, fun x hx y hy =>
      hs.apart x ((hmem x).mp hx).1 y ((hmem y).mp hy).1⟩
  by_cases hk : k = key m p
  · subst hk
    rw [Function.update_self]
    constructor
    · intro hnone
      cases hnone
    · rintro ⟨item, hitem, rfl, hkey⟩
      exact absurd hkey ((hmem item).mp hitem).2
  · rw [Function.update_of_ne hk, hs.reference k q]
    constructor
    · rintro ⟨item, hitem, rfl, hkey⟩
      exact ⟨item, (hmem item).mpr ⟨hitem, by rw [hkey]; exact hk⟩, rfl, hkey⟩
    · rintro ⟨item, hitem, hq⟩
      exact ⟨item, ((hmem item).mp hitem).1, hq⟩

theorem Stored.inserted (hs : Stored hash keys M h m) (hp : key m p ∈ keys)
    (hfree : M (key m p) = none)
    (hapart : ∀ item ∈ h.items, FlagOutside m p item.2 ∧ FlagOutside m item.2 p) :
    Stored hash keys (Function.update M (key m p) (some p))
      { h with items := (hash (key m p), p) :: h.items } m := by
  have hnew : ∀ item ∈ h.items, key m item.2 ≠ key m p := by
    intro item hitem hk
    have hsome := (hs.reference (key m p) item.2).mpr ⟨item, hitem, rfl, hk⟩
    rw [hfree] at hsome
    cases hsome
  have hself : FlagOutside m p p := fun _ => Or.inl (by omega)
  refine ⟨hs.hash_eq, fun item hitem => ?_, hs.distinct.cons hnew, fun k q => ?_, fun x hx y hy => ?_⟩
  · rcases List.mem_cons.mp hitem with rfl | hitem
    · exact ⟨rfl, hp⟩
    · exact hs.keyed item hitem
  · by_cases hk : k = key m p
    · subst hk
      rw [Function.update_self]
      constructor
      · intro he
        have hpq : p = q := Option.some.inj he
        exact ⟨_, List.mem_cons_self .., hpq, by rw [hpq]⟩
      · rintro ⟨item, hitem, rfl, hkey⟩
        rcases List.mem_cons.mp hitem with rfl | hitem
        · rfl
        · exact absurd hkey (hnew item hitem)
    · rw [Function.update_of_ne hk, hs.reference k q]
      constructor
      · rintro ⟨item, hitem, hq⟩
        exact ⟨item, List.mem_cons_of_mem _ hitem, hq⟩
      · rintro ⟨item, hitem, rfl, hkey⟩
        rcases List.mem_cons.mp hitem with rfl | hitem
        · exact absurd hkey.symm hk
        · exact ⟨item, hitem, rfl, hkey⟩
  · rcases List.mem_cons.mp hx with rfl | hx
    · rcases List.mem_cons.mp hy with rfl | hy
      · exact hself
      · exact (hapart y hy).1
    · rcases List.mem_cons.mp hy with rfl | hy
      · exact (hapart x hx).2
      · exact hs.apart x hx y hy

/-! ### The calls -/

theorem entryHashMapPut_eq (hfind : (h.items.find? (h.found m p)).map Prod.snd = M (key m p))
    (oom : Bool) : entryHashMapPut h m oom p =
      if oom then (true, h, m)
      else (false, { h with items := (h.hash (key m p), p) :: h.items.eraseP (h.found m p) },
        clear (M (key m p)) m) := by
  cases oom with
  | true => rfl
  | false =>
    simp only [entryHashMapPut, Hashmap.set, hfind, Bool.false_eq_true, if_false]
    cases M (key m p) with
    | none => rfl
    | some q => rfl

theorem entryHashMapDelete_eq (hfind : (h.items.find? (h.found m p)).map Prod.snd = M (key m p)) :
    entryHashMapDelete h m p =
      ({ h with items := h.items.eraseP (h.found m p) }, clear (M (key m p)) m) := by
  simp only [entryHashMapDelete, Hashmap.delete, hfind]
  cases M (key m p) with
  | none => rfl
  | some q => rfl

theorem KeyCall.implements_of_find {call : KeyCall}
    (hfind : (h.items.find? (h.found m call.entry)).map Prod.snd = M (key m call.entry)) :
    call.Implements M h m := by
  cases call with
  | put p oom =>
    have hfind : (h.items.find? (h.found m p)).map Prod.snd = M (key m p) := hfind
    have hput := entryHashMapPut_eq hfind oom
    cases oom with
    | true => exact ⟨rfl, rfl⟩
    | false =>
      simp only [Implements, apply, hput]
      exact ⟨rfl, rfl⟩
  | get p => exact ⟨congrArg IndexAnswer.get hfind, rfl⟩
  | delete p =>
    have hfind : (h.items.find? (h.found m p)).map Prod.snd = M (key m p) := hfind
    have hdelete := entryHashMapDelete_eq hfind
    simp only [Implements, apply, hdelete]
    exact ⟨rfl, rfl⟩

/-- Clearing the flag of a stored entry changes no key of an entry apart from it. -/
theorem Stored.key_clear (hs : Stored hash keys M h m) (k : List UInt8)
    (hq : ∀ x ∈ h.items, FlagOutside m x.2 q) : key (clear (M k) m) q = key m q := by
  cases hM : M k with
  | none => rfl
  | some x =>
    obtain ⟨item, hitem, rfl, -⟩ := (hs.reference k x).mp hM
    exact key_setActive (hq item hitem) 0

theorem Stored.call (hs : Stored hash keys M h m) (hsep : Separates hash keys) (call : KeyCall)
    (hmem : key m call.entry ∈ keys) (hapart : call.Apart h m) :
    Stored hash keys (call.reference (key m call.entry) M).2 (call.apply (h, m)).2.1
      (call.apply (h, m)).2.2 := by
  obtain rfl := hs.hash_eq
  have hfind := hs.find_eq hsep hmem
  have herased := hs.erased hsep hmem
  cases call with
  | get p => exact hs
  | delete p =>
    have hfind : (h.items.find? (h.found m p)).map Prod.snd = M (key m p) := hfind
    have hdelete := entryHashMapDelete_eq hfind
    simp only [KeyCall.apply, hdelete]
    refine herased.changed fun item hitem => hs.key_clear _ fun x hx => ?_
    exact hs.apart x hx item (List.mem_of_mem_eraseP hitem)
  | put p oom =>
    have hfind : (h.items.find? (h.found m p)).map Prod.snd = M (key m p) := hfind
    have hput := entryHashMapPut_eq hfind oom
    cases oom with
    | true => exact hs
    | false =>
      have hinserted := herased.inserted hmem (Function.update_self ..) fun item hitem =>
        hapart item (List.mem_of_mem_eraseP hitem)
      rw [Function.update_idem] at hinserted
      simp only [KeyCall.apply, hput, Bool.false_eq_true, if_false]
      refine hinserted.changed fun item hitem => hs.key_clear _ fun x hx => ?_
      rcases List.mem_cons.mp hitem with rfl | hitem
      · exact (hapart x hx).2
      · exact hs.apart x hx item (List.mem_of_mem_eraseP hitem)

theorem KeyRun.stored (run : KeyRun hash keys M h m) (hsep : Separates hash keys) :
    Stored hash keys M h m := by
  induction run with
  | opened memory =>
    exact ⟨rfl, by simp, List.nodup_nil, by simp, by simp⟩
  | changed memory run same ih => exact ih.changed same
  | called call run mem apart ih => exact ih.call hsep call mem apart

/-! ### Confused keys -/

/-- The memory with a header and key at `p`. -/
def writeKey (m : Memory) (p : Pointer) (k : List UInt8) : Memory :=
  (setKeySize m p k.length).write (p.add entryHeaderSize) k

theorem key_writeKey {k : List UInt8} (hk : k.length < 2 ^ 16) : key (writeKey m p k) p = k := by
  have hsize : keySize (writeKey m p k) p = k.length := by
    have hstored : keySize (setKeySize m p k.length) p = k.length := by
      unfold setKeySize keySize
      rw [load_store_same]
      exact Nat.mod_eq_of_lt hk
    rw [← hstored]
    refine load_congr fun a h1 h2 => Memory.write_outside _ _ _ (Or.inr (Or.inl ?_))
    change a < p.offset + 16
    omega
  rw [key, hsize, writeKey]
  exact Memory.read_write_same ..

theorem key_writeKey_other (k : List UInt8) (h : q.block ≠ p.block) :
    key (writeKey m p k) q = key m q := by
  have hout : ∀ a, writeKey m p k q.block a = m q.block a := by
    intro a
    have hwrite : writeKey m p k q.block a = setKeySize m p k.length q.block a :=
      Memory.write_outside _ _ _ (Or.inl h)
    rw [hwrite]
    exact store_outside _ _ _ _ _ (Or.inl h)
  have hsize : keySize (writeKey m p k) q = keySize m q := load_congr fun a _ _ => hout a
  rw [key, key, hsize]
  exact Memory.read_congr fun a _ _ => hout a

/-- One key is put, and a key that it is confused with is looked up. -/
theorem not_implements_of_confused {k1 k2 : List UInt8} (h1 : k1 ∈ keys) (h2 : k2 ∈ keys)
    (hl1 : k1.length < 2 ^ 16) (hl2 : k2.length < 2 ^ 16) (hc : Confused k1 k2)
    (hhash : hash k1 = hash k2) :
    ∃ M h m, ∃ call : KeyCall, KeyRun hash keys M h m ∧ key m call.entry ∈ keys ∧
      call.Apart h m ∧ ¬ call.Implements M h m := by
  have hne : k1 ≠ k2 := by
    rintro rfl
    rcases hc with hlt | ⟨-, u, v1, v2, hv, he1, he2⟩
    · omega
    · rw [he1] at he2
      exact hv (List.cons.inj (List.append_cancel_left he2)).2
  let m : Memory := writeKey (writeKey (fun _ _ => 0) ⟨.ring, 0⟩ k2) ⟨.key 0, 0⟩ k1
  have hkey1 : key m ⟨.key 0, 0⟩ = k1 := key_writeKey hl1
  have hkey2 : key m ⟨.ring, 0⟩ = k2 :=
    (key_writeKey_other k1 (by simp)).trans (key_writeKey hl2)
  have hput : key m (KeyCall.put ⟨.ring, 0⟩ false).entry ∈ keys := by
    rw [KeyCall.entry, hkey2]
    exact h2
  have hrun : KeyRun hash keys _ _ _ :=
    .called (.put ⟨.ring, 0⟩ false) (.opened m) hput fun item hitem => by cases hitem
  refine ⟨_, _, _, .get ⟨.key 0, 0⟩, hrun, ?_, trivial, ?_⟩
  · show key m ⟨.key 0, 0⟩ ∈ keys
    rw [hkey1]
    exact h1
  · rintro ⟨hanswer, -⟩
    have hfound : entryHashMapGet ⟨hash, [(hash k2, ⟨.ring, 0⟩)]⟩ m ⟨.key 0, 0⟩ = some ⟨.ring, 0⟩ := by
      have htest : Hashmap.found ⟨hash, [(hash k2, ⟨.ring, 0⟩)]⟩ m ⟨.key 0, 0⟩ (hash k2, ⟨.ring, 0⟩) =
          true := by
        simp only [Hashmap.found, entryHash, entryCompare, hkey1, hkey2, hhash, decide_eq_true_eq,
          true_and]
        exact (keyCompare_eq_zero_iff hne).mpr hc
      simp only [entryHashMapGet, Hashmap.get, List.find?_cons, htest, Option.map_some]
    have hget : IndexAnswer.get (entryHashMapGet ⟨hash, [(hash (key m ⟨.ring, 0⟩), ⟨.ring, 0⟩)]⟩ m
        ⟨.key 0, 0⟩) = .get (Function.update (fun _ => none) (key m ⟨.ring, 0⟩) (some ⟨.ring, 0⟩)
          (key m ⟨.key 0, 0⟩)) := hanswer
    rw [hkey1, hkey2, Function.update_of_ne hne, hfound] at hget
    cases hget

/-- For any hash and any set of keys: the index is a map on them, in every run, exactly if the
hash separates the keys that entry_compare confuses. -/
theorem keyIndex_isMap_iff (hash : List UInt8 → Nat) (keys : Set (List UInt8)) :
    (∀ M h m, KeyRun hash keys M h m → ∀ call : KeyCall, key m call.entry ∈ keys →
      call.Apart h m → call.Implements M h m) ↔ Separates hash keys := by
  constructor
  · intro hall k1 h1 k2 h2 hl1 hl2 hc hhash
    obtain ⟨M, h, m, call, hrun, hmem, hapart, hnot⟩ :=
      not_implements_of_confused h1 h2 hl1 hl2 hc hhash
    exact hnot (hall M h m hrun call hmem hapart)
  · intro hsep M h m hrun call hmem hapart
    exact KeyCall.implements_of_find ((hrun.stored hsep).find_eq hsep hmem)

end

/- With a constant hash, `a` is found after `ab` was put, and [0, 2] after [0, 1]. -/
theorem unput_key_found :
    let m := writeKey (writeKey (fun _ _ => 0) ⟨.ring, 0⟩ [97, 98]) ⟨.key 0, 0⟩ [97]
    let m' := writeKey (writeKey (fun _ _ => 0) ⟨.ring, 0⟩ [0, 1]) ⟨.key 0, 0⟩ [0, 2]
    let put m := KeyCall.apply (.put ⟨.ring, 0⟩ false) (⟨fun _ => 0, []⟩, m)
    let get r := KeyCall.apply (.get ⟨.key 0, 0⟩) r
    key m ⟨.ring, 0⟩ = [97, 98] ∧ key m ⟨.key 0, 0⟩ = [97] ∧
      (get (put m).2).1 = .get (some ⟨.ring, 0⟩) ∧
    key m' ⟨.ring, 0⟩ = [0, 1] ∧ key m' ⟨.key 0, 0⟩ = [0, 2] ∧
      (get (put m').2).1 = .get (some ⟨.ring, 0⟩) := by
  decide

end CacheServer
