import CacheServer.Library.Fuel
import CacheServer.Index.KeyRuns
import CacheServer.Index.SipHash
import CacheServer.Model.TableIndex
import CacheServer.RobinHood.Runs

/-!
# The key index over the hash table

Beside the index over hashmap.c runs the one over the associative array, which
fails to grow when the table does. On keys that the stored bits of SipHash
separate they answer alike and change the memory alike, and the items of the one
are those of the other.
-/

namespace CacheServer.RobinHood
open EntryHeader

/-- The bits of the hash that a bucket keeps. -/
def indexHash (k : List UInt8) : Nat := keyHash k % hashSize

inductive IndexCall where
  | put (entry : Pointer) (mallocs : Mallocs)
  | get (entry : Pointer)
  | delete (entry : Pointer) (mallocs : Mallocs)
  deriving DecidableEq, Repr

namespace IndexCall

def apply : IndexCall → Hashmap Pointer → Memory →
    Except Fault (IndexAnswer × Hashmap Pointer × Memory)
  | put p mallocs, map, m => do
    let (failed, map, m) ← RobinHood.entryHashMapPut m mallocs map p
    .ok (.put failed, map, m)
  | get p, map, m => do
    let found ← RobinHood.entryHashMapGet m map p
    .ok (.get found, map, m)
  | delete p mallocs, map, m => do
    let (map, m) ← RobinHood.entryHashMapDelete m mallocs map p
    .ok (.delete, map, m)

/-- The call of the index over the associative array. -/
def keyCall (map : Hashmap Pointer) : IndexCall → KeyCall
  | put p mallocs => .put p (decide (GrowthFails mallocs map))
  | get p => .get p
  | delete p _ => .delete p

def entry : IndexCall → Pointer
  | put p _ | get p | delete p _ => p

/-- An entry that is put overlaps no stored one. -/
def Apart : IndexCall → Hashmap Pointer → Memory → Prop
  | put p _, map, m => ∀ x ∈ map.items, FlagOutside m p x.2 ∧ FlagOutside m x.2 p
  | get _, _, _ | delete _ _, _, _ => True

end IndexCall

inductive IndexRun (keys : Set (List UInt8)) : Hashmap Pointer → Memory → Prop
  | opened {mallocs : Mallocs} {map : Hashmap Pointer} (memory : Memory)
      (new : entryHashMapOpen mallocs = .ok (some map)) : IndexRun keys map memory
  | changed {map : Hashmap Pointer} {m : Memory} (memory : Memory) (run : IndexRun keys map m)
      (same : ∀ x ∈ map.items, key memory x.2 = key m x.2) : IndexRun keys map memory
  | called {map map' : Hashmap Pointer} {m m' : Memory} {answer : IndexAnswer} (call : IndexCall)
      (run : IndexRun keys map m) (mem : key m call.entry ∈ keys) (apart : call.Apart map m)
      (small : map.count + 1 < dibSize) (step : call.apply map m = .ok (answer, map', m')) :
      IndexRun keys map' m'

/-- The array holds what the table holds. -/
structure Indexes (map : Hashmap Pointer) (h : CacheServer.Hashmap) : Prop where
  valid : map.Valid
  items : (h.items : Multiset (Nat × Pointer)) = map.items

section
variable {keys : Set (List UInt8)} {M : KeyMap} {map map' : Hashmap Pointer}
  {h h' : CacheServer.Hashmap} {m m' : Memory} {p : Pointer} {mallocs : Mallocs}

theorem mem_items (hi : Indexes map h) {x : Nat × Pointer} : x ∈ map.items ↔ x ∈ h.items := by
  rw [← hi.items]
  exact Multiset.mem_coe

/-- The legal entries have their keys in the set. -/
def entriesOf (keys : Set (List UInt8)) (m : Memory) : Set Pointer := {p | key m p ∈ keys}

theorem entryCallbacks_lawful (hsep : Separates indexHash keys) (m : Memory) :
    Lawful (entryCallbacks m) (key m) (entriesOf keys m) := by
  intro a ha b hb
  constructor
  · rintro ⟨hhash, hcompare⟩
    by_contra hne
    exact hsep _ ha _ hb (key_length_lt m a) (key_length_lt m b)
      ((keyCompare_eq_zero_iff hne).mp hcompare) hhash.symm
  · intro he
    refine ⟨?_, ?_⟩
    · change indexHash (key m b) = indexHash (key m a)
      rw [he]
    · change keyCompare (key m a) (key m b) = 0
      rw [he]
      exact keyCompare_self _

theorem Stored.represents (hs : Stored indexHash keys M h m) :
    Represents (key m) ((h.items : Multiset (Nat × Pointer)).map Prod.snd) M where
  distinct := by
    rw [Multiset.map_map, Multiset.map_coe, Multiset.coe_nodup]
    exact hs.distinct
  get k p := by
    rw [hs.reference k p, Multiset.mem_map]
    constructor
    · rintro ⟨x, hx, rfl, hk⟩
      exact ⟨⟨x, hx, rfl⟩, hk⟩
    · rintro ⟨⟨x, hx, rfl⟩, hk⟩
      exact ⟨x, hx, rfl, hk⟩

theorem Indexes.holds (hi : Indexes map h) (hs : Stored indexHash keys M h m) :
    Holds (entryCallbacks m) (key m) (entriesOf keys m) map M where
  valid := hi.valid
  hashed x hx := by
    obtain ⟨hhash, -⟩ := hs.keyed x ((mem_items hi).mp hx)
    exact Prod.ext hhash rfl
  legal x hx := (hs.keyed x ((mem_items hi).mp hx)).2
  represents := by
    rw [← hi.items]
    exact Stored.represents hs

theorem map_entry {T : Multiset (Nat × Pointer)} (hT : ∀ x ∈ T, x = (entryCallbacks m).entry x.2) :
    (T.map Prod.snd).map (entryCallbacks m).entry = T := by
  have hid : ∀ x ∈ T, ((entryCallbacks m).entry ∘ Prod.snd) x = x := fun x hx => (hT x hx).symm
  rw [Multiset.map_map, Multiset.map_congr rfl hid, Multiset.map_id']

/-- Two indexes of one map hold the same items. -/
theorem Holds.indexes (hh : Holds (entryCallbacks m) (key m) (entriesOf keys m) map M)
    (hs : Stored indexHash keys M h m) : Indexes map h where
  valid := hh.valid
  items := by
    have hitems : ∀ x ∈ (h.items : Multiset (Nat × Pointer)),
        x = (entryCallbacks m).entry x.2 := by
      intro x hx
      obtain ⟨hhash, -⟩ := hs.keyed x (Multiset.mem_coe.mp hx)
      exact Prod.ext hhash rfl
    rw [← map_entry hitems, (Stored.represents hs).unique hh.represents, map_entry hh.hashed]

/-- The array after the call, before the flag of a displaced entry is cleared. -/
theorem Stored.beforeClear (hs : Stored indexHash keys M h m) (hsep : Separates indexHash keys)
    (call : KeyCall) (hmem : key m call.entry ∈ keys) (hapart : call.Apart h m) :
    Stored indexHash keys (call.reference (key m call.entry) M).2 (call.apply (h, m)).2.1 m := by
  have hhash := hs.hash_eq
  have hfind := hs.find_eq hsep hmem
  have herased := hs.erased hsep hmem
  cases call with
  | get p => exact hs
  | delete p =>
    have hdelete := entryHashMapDelete_eq hfind
    simp only [KeyCall.entry] at hdelete
    simp only [KeyCall.apply, hdelete]
    exact herased
  | put p oom =>
    have hput := entryHashMapPut_eq hfind oom
    simp only [KeyCall.entry] at hput
    cases oom with
    | true => exact hs
    | false =>
      have hinserted := herased.inserted hmem (Function.update_self ..) fun item hitem =>
        hapart item (List.mem_of_mem_eraseP hitem)
      rw [Function.update_idem] at hinserted
      simp only [KeyCall.apply, hput, Bool.false_eq_true, if_false]
      rw [hhash] at hinserted ⊢
      exact hinserted

/-- The call of the table, by the map. -/
theorem Holds.index (hh : Holds (entryCallbacks m) (key m) (entriesOf keys m) map M)
    (hsep : Separates indexHash keys) (call : IndexCall) (hmem : key m call.entry ∈ keys)
    (hsmall : map.count + 1 < dibSize) :
    ∃ map', call.apply map m = .ok
        (((call.keyCall map).reference (key m call.entry) M).1, map',
          clear ((call.keyCall map).displaced (key m call.entry) M) m) ∧
      Holds (entryCallbacks m) (key m) (entriesOf keys m) map'
        ((call.keyCall map).reference (key m call.entry) M).2 := by
  have hl := entryCallbacks_lawful hsep m
  cases call with
  | get p =>
    have hget : RobinHood.hashmapGet (entryCallbacks m) map p = .ok (M (key m p)) := hh.hashmapGet hl hmem
    refine ⟨map, ?_, hh⟩
    simp only [IndexCall.apply, RobinHood.entryHashMapGet, hget]
    rfl
  | delete p mallocs =>
    obtain ⟨map', hdelete, hholds, -⟩ := hh.hashmapDelete mallocs hl hmem (Nat.lt_of_succ_lt hsmall)
    have hdelete : RobinHood.hashmapDelete (entryCallbacks m) mallocs map p = .ok (M (key m p), map') :=
      hdelete
    refine ⟨map', ?_, hholds⟩
    simp only [IndexCall.apply, RobinHood.entryHashMapDelete, hdelete, IndexCall.keyCall,
      IndexCall.entry, KeyCall.displaced]
    cases M (key m p) with
    | none => rfl
    | some q => rfl
  | put p mallocs =>
    obtain ⟨map', hset, hholds, hoom⟩ := hh.hashmapSet mallocs hl hmem hsmall
    have hset : RobinHood.hashmapSet (entryCallbacks m) mallocs map p =
      .ok ((setAnswer (key m) (decide (GrowthFails mallocs map)) p M).1, map') := hset
    have hholds : Holds (entryCallbacks m) (key m) (entriesOf keys m) map'
      (setAnswer (key m) (decide (GrowthFails mallocs map)) p M).2 := hholds
    simp only [IndexCall.apply, RobinHood.entryHashMapPut, hset, IndexCall.keyCall,
      IndexCall.entry, KeyCall.displaced, KeyCall.reference]
    simp only [setAnswer] at hholds ⊢
    cases hg : decide (GrowthFails mallocs map) with
    | true =>
      rw [hg] at hoom hholds
      refine ⟨map', ?_, hholds⟩
      simp only [if_true, hoom]
      rfl
    | false =>
      rw [hg] at hoom hholds
      refine ⟨map', ?_, hholds⟩
      simp only [Bool.false_eq_true, if_false]
      cases M (key m p) with
      | none =>
        simp only [hoom]
        rfl
      | some q => rfl

/-! ### Runs -/

theorem IndexCall.apart_iff (hi : Indexes map h) (call : IndexCall) :
    call.Apart map m ↔ (call.keyCall map).Apart h m := by
  cases call with
  | put p mallocs => exact forall_congr' fun x => imp_congr (mem_items hi) Iff.rfl
  | get p => exact Iff.rfl
  | delete p mallocs => exact Iff.rfl

theorem IndexCall.entry_keyCall (map : Hashmap Pointer) (call : IndexCall) :
    (call.keyCall map).entry = call.entry := by
  cases call with
  | put p mallocs => rfl
  | get p => rfl
  | delete p mallocs => rfl

/-- One call on both indexes. -/
theorem Indexes.call (hi : Indexes map h) (hs : Stored indexHash keys M h m)
    (hsep : Separates indexHash keys) (call : IndexCall) (hmem : key m call.entry ∈ keys)
    (hapart : call.Apart map m) (hsmall : map.count + 1 < dibSize) :
    ∃ map', call.apply map m = .ok (((call.keyCall map).apply (h, m)).1, map',
        ((call.keyCall map).apply (h, m)).2.2) ∧
      Indexes map' ((call.keyCall map).apply (h, m)).2.1 := by
  have hentry := call.entry_keyCall map
  have hmem' : key m (call.keyCall map).entry ∈ keys := by
    rw [hentry]
    exact hmem
  obtain ⟨map', happly, hholds⟩ := (hi.holds hs).index hsep call hmem hsmall
  have hfind := hs.find_eq hsep hmem'
  obtain ⟨hanswer, hclear⟩ := KeyCall.implements_of_find hfind
  have hbefore := Stored.beforeClear hs hsep (call.keyCall map) hmem'
    ((call.apart_iff hi).mp hapart)
  rw [hentry] at hanswer hclear hbefore
  exact ⟨map', by rw [happly, hanswer, hclear], hholds.indexes hbefore⟩

/-- Beside every run of the index over the table there is one of the index over the
associative array. -/
theorem IndexRun.keyRun (run : IndexRun keys map m) (hsep : Separates indexHash keys) :
    ∃ M h, KeyRun indexHash keys M h m ∧ Indexes map h := by
  induction run with
  | opened memory new =>
    obtain ⟨hvalid, hzero⟩ := hashmapNew_valid (Nat.zero_le _) new
    exact ⟨_, _, .opened memory, hvalid, hzero.symm⟩
  | changed memory run same ih =>
    obtain ⟨M, h, hrun, hi⟩ := ih
    exact ⟨M, h, .changed memory hrun fun x hx => same x ((mem_items hi).mpr hx), hi⟩
  | called call run mem apart small step ih =>
    obtain ⟨M, h, hrun, hi⟩ := ih
    obtain ⟨map', happly, hi'⟩ := hi.call (hrun.stored hsep) hsep call mem apart small
    rw [happly] at step
    cases step
    refine ⟨_, _, .called (call.keyCall _) hrun ?_ ((call.apart_iff hi).mp apart), hi'⟩
    rw [call.entry_keyCall]
    exact mem

/-- The index over the table answers and changes the memory as the one over the associative
array, and both as the map from keys to entries. -/
theorem tableIndex_refines (run : IndexRun keys map m) (hsep : Separates indexHash keys) :
    ∃ M h, KeyRun indexHash keys M h m ∧ (h.items : Multiset (Nat × Pointer)) = map.items ∧
      ∀ call : IndexCall, key m call.entry ∈ keys → call.Apart map m → map.count + 1 < dibSize →
        ∃ map', call.apply map m = .ok (((call.keyCall map).apply (h, m)).1, map',
            ((call.keyCall map).apply (h, m)).2.2) ∧
          (((call.keyCall map).apply (h, m)).2.1.items : Multiset (Nat × Pointer)) = map'.items ∧
          (call.keyCall map).Implements M h m := by
  obtain ⟨M, h, hrun, hi⟩ := run.keyRun hsep
  have hs := hrun.stored hsep
  refine ⟨M, h, hrun, hi.items, fun call hmem hapart hsmall => ?_⟩
  obtain ⟨map', happly, hi'⟩ := hi.call hs hsep call hmem hapart hsmall
  refine ⟨map', happly, hi'.items, KeyCall.implements_of_find (hs.find_eq hsep ?_)⟩
  rw [call.entry_keyCall]
  exact hmem

end

theorem confused_ne {k1 k2 : List UInt8} (hc : Confused k1 k2) : k1 ≠ k2 := by
  rintro rfl
  rcases hc with hlt | ⟨-, u, v1, v2, hv, h1, h2⟩
  · exact Nat.lt_irrefl _ hlt
  · rw [h1] at h2
    exact hv (List.cons.inj (List.append_cancel_left h2)).2

/-- `a` and `ab`, which entry_compare confuses and SipHash separates. -/
def twoKeys : Set (List UInt8) := {k | k = [97] ∨ k = [97, 98]}

theorem twoKeys_separated : Separates indexHash twoKeys := by
  have hne : indexHash [97] ≠ indexHash [97, 98] := by decide +kernel
  rintro k1 (rfl | rfl) k2 (rfl | rfl) _ _ hc
  · exact absurd rfl (confused_ne hc)
  · exact hne
  · exact hne.symm
  · exact absurd rfl (confused_ne hc)

/-! ### A run with two keys -/

instance (m : Memory) (p q : Pointer) : Decidable (FlagOutside m p q) :=
  inferInstanceAs (Decidable (_ → _))

instance (map : Hashmap Pointer) (m : Memory) : (call : IndexCall) → Decidable (call.Apart map m)
  | .put p _ => inferInstanceAs (Decidable (∀ x ∈ map.items, FlagOutside m p x.2 ∧ FlagOutside m x.2 p))
  | .get _ | .delete _ _ => inferInstanceAs (Decidable True)

/-- The index and the memory after some calls, if all of them may be made. -/
def performCalls (keys : Set (List UInt8)) [DecidablePred (· ∈ keys)] :
    List IndexCall → Hashmap Pointer → Memory → Option (Hashmap Pointer × Memory)
  | [], map, m => some (map, m)
  | call :: calls, map, m =>
    if key m call.entry ∈ keys ∧ call.Apart map m ∧ map.count + 1 < dibSize then
      match call.apply map m with
      | .ok (_, map, m) => performCalls keys calls map m
      | .error _ => none
    else none

theorem performCalls_run {keys : Set (List UInt8)} [DecidablePred (· ∈ keys)] {calls : List IndexCall}
    {map map' : Hashmap Pointer} {m m' : Memory} (run : IndexRun keys map m)
    (h : performCalls keys calls map m = some (map', m')) : IndexRun keys map' m' := by
  induction calls generalizing map m with
  | nil =>
    cases h
    exact run
  | cons call calls ih =>
    rw [performCalls] at h
    split at h
    · rename_i hlegal
      obtain ⟨hmem, hapart, hsmall⟩ := hlegal
      split at h
      · rename_i hstep
        exact ih (.called call run hmem hapart hsmall hstep) h
      · cases h
    · cases h

instance : DecidablePred (· ∈ twoKeys) := fun k =>
  inferInstanceAs (Decidable (k = [97] ∨ k = [97, 98]))

def emptyTable : Hashmap Pointer :=
  { oom := false, cap := 16, nbuckets := 16, count := 0, mask := 15, growat := 12, shrinkat := 1,
    buckets := zeroed }

/-- Entries with the keys `a` and `ab`, and `ab` once more in a key buffer. -/
def twoEntries : Memory :=
  writeKey (writeKey (writeKey (fun _ _ => 0) ⟨.ring, 0⟩ [97]) ⟨.ring, 40⟩ [97, 98]) ⟨.key 0, 0⟩ [97, 98]

theorem tableIndex_refines_two : ∃ map m M h, IndexRun twoKeys map m ∧ map.count = 2 ∧
    KeyRun indexHash twoKeys M h m ∧ (h.items : Multiset (Nat × Pointer)) = map.items ∧
    M [97, 98] = some ⟨.ring, 40⟩ ∧
    (∃ map', IndexCall.apply (.get ⟨.key 0, 0⟩) map m = .ok (.get (some ⟨.ring, 40⟩), map', m)) ∧
    ∃ map', IndexCall.apply (.delete ⟨.key 0, 0⟩ ⟨true, true⟩) map m =
      .ok (.delete, map', clear (some ⟨.ring, 40⟩) m) := by
  have hnew : entryHashMapOpen ⟨true, true⟩ = .ok (some emptyTable) := rfl
  have hrun : ∃ r ∈ performCalls twoKeys [.put ⟨.ring, 0⟩ ⟨true, true⟩, .put ⟨.ring, 40⟩ ⟨true, true⟩]
      emptyTable twoEntries, r.1.count = 2 ∧ key r.2 ⟨.key 0, 0⟩ = [97, 98] ∧
        (IndexCall.apply (.get ⟨.key 0, 0⟩) r.1 r.2).Gives fun a => a.1 = .get (some ⟨.ring, 40⟩) := by
    decide +kernel
  obtain ⟨⟨map, m⟩, hr, hcount, hkey, ⟨answer, map₁, m₁⟩, hget, hanswer⟩ := hrun
  have hcount : map.count = 2 := hcount
  have hkey : key m ⟨.key 0, 0⟩ = [97, 98] := hkey
  have hanswer : answer = .get (some ⟨.ring, 40⟩) := hanswer
  have run : IndexRun twoKeys map m := performCalls_run (.opened twoEntries hnew) hr
  have hsmall : map.count + 1 < dibSize := by rw [hcount]; decide
  obtain ⟨M, h, hkeyRun, hitems, hcalls⟩ := tableIndex_refines run twoKeys_separated
  obtain ⟨map₂, hget₂, -, hgot, hkept⟩ := hcalls (.get ⟨.key 0, 0⟩) (Or.inr hkey) trivial hsmall
  obtain ⟨map₃, hdelete, -, hdeleted, hcleared⟩ :=
    hcalls (.delete ⟨.key 0, 0⟩ ⟨true, true⟩) (Or.inr hkey) trivial hsmall
  have hbinding : M [97, 98] = some ⟨.ring, 40⟩ := by
    rw [hget, hgot] at hget₂
    have hsame := congrArg Prod.fst (Except.ok.inj hget₂)
    rw [hanswer] at hsame
    have hfound := (IndexAnswer.get.inj hsame).symm
    rwa [← hkey]
  rw [hgot, hkept] at hget₂
  rw [hdeleted, hcleared] at hdelete
  simp only [IndexCall.keyCall, KeyCall.reference, KeyCall.displaced, KeyCall.entry, hkey, hbinding]
    at hget₂ hdelete
  exact ⟨map, m, M, h, run, hcount, hkeyRun, hitems, hbinding, ⟨map₂, hget₂⟩, map₃, hdelete⟩

end CacheServer.RobinHood
