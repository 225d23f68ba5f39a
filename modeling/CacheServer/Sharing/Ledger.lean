import Mathlib.Logic.Function.Basic
import CacheServer.Library.KeyedList
import CacheServer.Index.KeyCompare
import CacheServer.Sharing.Requests

/-!
# What the server has promised

The ledger reads off the history which value was stored last under each key, and
for each connection the key of its GET, the value that was stored under it at
the lookup, and what has been sent since. The index agrees with the ledger where
the requests of a run are not taken for one another by `entry_compare`.
-/

namespace CacheServer
open EntryHeader

/-- A GET: its key, the value stored under it at the lookup, and what has been sent since. -/
structure Reading where
  key : List UInt8
  value : Option (List UInt8)
  sent : List UInt8
  deriving DecidableEq

structure Ledger where
  stored : List UInt8 → Option (List UInt8)
  reading : Nat → Option Reading

namespace Ledger

def read (l : Ledger) (i : Nat) (f : Reading → Reading) : Ledger :=
  { l with reading := Function.update l.reading i ((l.reading i).map f) }

def next (l : Ledger) : Nat × Event → Ledger
  | (_, .stored key value _) => { l with stored := Function.update l.stored key (some value) }
  | (_, .executed ⟨.delete, key, _⟩) => { l with stored := Function.update l.stored key none }
  | (i, .executed ⟨.get, key, _⟩) =>
    { l with reading := Function.update l.reading i (some ⟨key, none, []⟩) }
  | (i, .lookedUp _ _) => l.read i fun r => { r with value := l.stored r.key }
  | (i, .sent bytes) => l.read i fun r => { r with sent := r.sent ++ bytes }
  | (i, .received _) => { l with reading := Function.update l.reading i none }
  | _ => l

end Ledger

def ledger (history : List (Nat × Event)) : Ledger :=
  history.foldl Ledger.next ⟨fun _ => none, fun _ => none⟩

/-- The event puts the key into the index, or takes it out. -/
def Event.rewrites (k : List UInt8) : Event → Prop
  | .stored key _ _ | .executed ⟨.delete, key, _⟩ => key = k
  | _ => False

/-- `v` is the value of the last PUT of the key that the index has taken, and no DELETE of the key
has been executed since. -/
def LastStored (history : List (Nat × Event)) (k v : List UInt8) : Prop :=
  ∃ i p before later, history = before ++ (i, .stored k v p) :: later ∧
    ∀ x ∈ later, ¬ x.2.rewrites k

/-- The answer to a GET that finds the value. -/
def valueResponse (value : List UInt8) : List UInt8 :=
  ResponseType.value.toByte :: (ByteArea.encodeLE 4 value.length ++ value)

def Reading.response (r : Reading) : List UInt8 :=
  match r.value with
  | none => [ResponseType.notFound.toByte]
  | some value => valueResponse value

section
variable {history : List (Nat × Event)} {events : List Event} {i j : Nat} {p q : Pointer}
  {c : Connection} {w : World System} {o : Outcome System} {es : List Slot} {H : Pointer → Nat}
  {F : Slot → Prop} {m m' : Memory} {h : Hashmap} {item : Nat × Pointer}
  {stored : List UInt8 → Option (List UInt8)}

theorem ledger_extend (history : List (Nat × Event)) (i : Nat) (event : Event) :
    ledger (extend history i [event]) = (ledger history).next (i, event) := by
  simp [ledger, extend]

theorem next_reading_other (l : Ledger) (hji : j ≠ i) (event : Event) :
    (l.next (i, event)).reading j = l.reading j := by
  cases event with
  | received | sent | lookedUp => exact Function.update_of_ne hji ..
  | executed request =>
    obtain ⟨type, key, value⟩ := request
    cases type with
    | get => exact Function.update_of_ne hji ..
    | put | delete | ping => rfl
  | allocated | stored | malloced | freed | released => rfl

theorem reading_other (hji : j ≠ i) (events : List Event) :
    (ledger (extend history i events)).reading j = (ledger history).reading j := by
  induction events generalizing history with
  | nil => rw [extend_nil]
  | cons event events ih =>
    rw [← List.singleton_append, extend_append, ih, ledger_extend, next_reading_other _ hji]

theorem next_stored {event : Event} (l : Ledger) (hentry : ∀ k v p, event ≠ .stored k v p)
    (hdeleted : event.deletedKey = none) : (l.next (i, event)).stored = l.stored := by
  cases event with
  | stored k v p => exact absurd rfl (hentry k v p)
  | executed request =>
    obtain ⟨type, key, value⟩ := request
    cases type with
    | delete => cases hdeleted
    | get | put | ping => rfl
  | received | sent | lookedUp | allocated | malloced | freed | released => rfl

theorem stored_silent (hsilent : Silent events) :
    (ledger (extend history i events)).stored = (ledger history).stored := by
  induction events generalizing history with
  | nil => rw [extend_nil]
  | cons event events ih =>
    obtain ⟨hnamed, hdeleted⟩ := hsilent
    rw [named, List.filterMap_eq_nil_iff] at hnamed
    rw [List.filterMap_eq_nil_iff] at hdeleted
    have hrest : Silent events :=
      ⟨List.filterMap_eq_nil_iff.mpr fun x hx => hnamed x (List.mem_cons_of_mem _ hx),
        List.filterMap_eq_nil_iff.mpr fun x hx => hdeleted x (List.mem_cons_of_mem _ hx)⟩
    rw [← List.singleton_append, extend_append, ih hrest, ledger_extend]
    refine next_stored _ (fun k v p hevent => ?_) (hdeleted event (List.mem_cons_self ..))
    have hnone := hnamed event (List.mem_cons_self ..)
    rw [hevent] at hnone
    cases hnone

/-! ### What is stored -/

theorem next_rewrites (l : Ledger) {x : Nat × Event} {k : List UInt8} (h : ¬ x.2.rewrites k) :
    (l.next x).stored k = l.stored k := by
  obtain ⟨i, event⟩ := x
  cases event with
  | stored key value p => exact Function.update_of_ne (fun he => h he.symm) ..
  | executed request =>
    obtain ⟨type, key, value⟩ := request
    cases type with
    | delete => exact Function.update_of_ne (fun he => h he.symm) ..
    | get | put | ping => rfl
  | received | sent | lookedUp | allocated | malloced | freed | released => rfl

/- The event alone decides what is stored under the key that it rewrites. -/
theorem next_last (l : Ledger) {x : Nat × Event} {k v : List UInt8} (h : x.2.rewrites k) :
    (l.next x).stored k = some v ↔ ∃ p, x.2 = .stored k v p := by
  obtain ⟨i, event⟩ := x
  cases event with
  | stored key value p =>
    obtain rfl : key = k := h
    have hself : (l.next (i, .stored key value p)).stored key = some value := Function.update_self ..
    rw [hself]
    simp [eq_comm]
  | executed request =>
    obtain ⟨type, key, value⟩ := request
    cases type with
    | delete =>
      obtain rfl : key = k := h
      have hself : (l.next (i, .executed ⟨.delete, key, value⟩)).stored key = none :=
        Function.update_self ..
      rw [hself]
      simp
    | get | put | ping => cases h
  | received | sent | lookedUp | allocated | malloced | freed | released => cases h

theorem LastStored.concat_iff {x : Nat × Event} {k v : List UInt8} : LastStored (history ++ [x]) k v ↔
    (LastStored history k v ∧ ¬ x.2.rewrites k) ∨ ∃ p, x.2 = .stored k v p := by
  constructor
  · rintro ⟨i, p, before, later, heq, hlater⟩
    rcases List.eq_nil_or_concat later with rfl | ⟨later, last, rfl⟩
    · obtain ⟨-, hlast⟩ := List.append_inj' heq rfl
      cases hlast
      exact Or.inr ⟨p, rfl⟩
    · rw [List.concat_eq_append, ← List.cons_append, ← List.append_assoc] at heq
      obtain ⟨hbefore, hlast⟩ := List.append_inj' heq rfl
      cases hlast
      exact Or.inl ⟨⟨i, p, before, later, hbefore, fun y hy => hlater y (by simp [hy])⟩,
        hlater x (by simp)⟩
  · rintro (⟨⟨i, p, before, later, rfl, hlater⟩, hx⟩ | ⟨p, hx⟩)
    · refine ⟨i, p, before, later ++ [x], by simp, fun y hy => ?_⟩
      rcases List.mem_append.mp hy with hy | hy
      · exact hlater y hy
      · rw [List.mem_singleton.mp hy]
        exact hx
    · obtain ⟨i, event⟩ := x
      cases hx
      exact ⟨i, p, history, [], rfl, by simp⟩

/-- The ledger has what the last PUT has stored. -/
theorem ledger_stored_iff {k v : List UInt8} :
    (ledger history).stored k = some v ↔ LastStored history k v := by
  induction history using List.reverseRecOn with
  | nil =>
    constructor
    · intro h
      cases h
    · rintro ⟨i, p, before, later, heq, -⟩
      exact absurd heq.symm (by simp)
  | append_singleton history x ih =>
    have hnext : ledger (history ++ [x]) = (ledger history).next x := by simp [ledger]
    rw [LastStored.concat_iff, hnext]
    by_cases hx : x.2.rewrites k
    · rw [next_last _ hx]
      constructor
      · exact fun h => Or.inr h
      · rintro (⟨-, hother⟩ | h)
        · exact absurd hx hother
        · exact h
    · rw [next_rewrites _ hx, ih]
      constructor
      · exact fun h => Or.inl ⟨h, hx⟩
      · rintro (⟨h, -⟩ | ⟨p, hp⟩)
        · exact h
        · rw [hp] at hx
          exact absurd rfl hx

/-! ### The index and the ledger -/

/-- No entry of the index is taken for another key than its own. -/
def Distinguished (h : Hashmap) (m : Memory) (p : Pointer) : Prop :=
  ∀ item ∈ h.items, h.found m p item = true → key m item.2 = key m p

instance (h : Hashmap) (m : Memory) (p : Pointer) : Decidable (Distinguished h m p) :=
  inferInstanceAs (Decidable (∀ item ∈ h.items, h.found m p item = true → key m item.2 = key m p))

/-- The index leads from a key to the value that is stored under it. -/
structure Published (stored : List UInt8 → Option (List UInt8)) (h : Hashmap) (m : Memory) : Prop where
  hashed : ∀ item ∈ h.items, item.1 = h.hash (key m item.2)
  value : ∀ item ∈ h.items, stored (key m item.2) = some (value m item.2)
  found : ∀ k v, stored k = some v → ∃ item ∈ h.items, key m item.2 = k
  distinct : DistinctKeys (fun item => key m item.2) h.items

namespace Published

theorem found_iff (hp : Published stored h m) (hd : Distinguished h m p) (hitem : item ∈ h.items) :
    h.found m p item = true ↔ key m item.2 = key m p := by
  refine ⟨hd item hitem, fun hk => ?_⟩
  rw [Hashmap.found, decide_eq_true_eq, entryCompare, hk]
  exact ⟨(hp.hashed item hitem).trans (congrArg h.hash hk), keyCompare_self _⟩

theorem get (hp : Published stored h m) (hd : Distinguished h m p) :
    (entryHashMapGet h m p).map (EntryHeader.value m) = stored (key m p) ∧
      ∀ q, entryHashMapGet h m p = some q → key m q = key m p := by
  have hfound : ∀ item ∈ h.items, h.found m p item = true ↔ key m item.2 = key m p :=
    fun item hitem => hp.found_iff hd hitem
  have hget : entryHashMapGet h m p = (h.items.find? (h.found m p)).map Prod.snd := rfl
  cases hf : h.items.find? (h.found m p) with
  | none =>
    rw [hget, hf]
    refine ⟨?_, fun q hq => by cases hq⟩
    cases hs : stored (key m p) with
    | none => rfl
    | some v =>
      obtain ⟨item, hitem, hk⟩ := hp.found _ _ hs
      exact absurd ((hfound item hitem).mpr hk) (List.find?_eq_none.mp hf item hitem)
  | some item =>
    have hitem := List.mem_of_find?_eq_some hf
    have hk := (hfound item hitem).mp (List.find?_some hf)
    rw [hget, hf]
    refine ⟨?_, fun q hq => ?_⟩
    · rw [← hk, hp.value item hitem]
      rfl
    · cases hq
      exact hk

theorem erase (hp : Published stored h m) (hd : Distinguished h m p) :
    Published (Function.update stored (key m p) none)
      { h with items := h.items.eraseP (h.found m p) } m := by
  have hmem : ∀ item, item ∈ h.items.eraseP (h.found m p) ↔
      item ∈ h.items ∧ key m item.2 ≠ key m p := fun item =>
    hp.distinct.mem_eraseP fun item hitem => hp.found_iff hd hitem
  constructor
  · exact fun item hitem => hp.hashed item ((hmem item).mp hitem).1
  · intro item hitem
    obtain ⟨hold, hne⟩ := (hmem item).mp hitem
    rw [Function.update_of_ne hne]
    exact hp.value item hold
  · intro k v hk
    by_cases hkp : k = key m p
    · rw [hkp, Function.update_self] at hk
      cases hk
    · rw [Function.update_of_ne hkp] at hk
      obtain ⟨item, hitem, rfl⟩ := hp.found k v hk
      exact ⟨item, (hmem item).mpr ⟨hitem, hkp⟩, rfl⟩
  · exact hp.distinct.sublist List.eraseP_sublist

theorem insert (hp : Published stored h m) (hfree : stored (key m p) = none) :
    Published (Function.update stored (key m p) (some (EntryHeader.value m p)))
      { h with items := (h.hash (key m p), p) :: h.items } m := by
  have hnew : ∀ item ∈ h.items, key m item.2 ≠ key m p := by
    intro item hitem hk
    have hvalue := hp.value item hitem
    rw [hk, hfree] at hvalue
    cases hvalue
  constructor
  · intro item hitem
    rcases List.mem_cons.mp hitem with rfl | hitem
    · rfl
    · exact hp.hashed item hitem
  · intro item hitem
    rcases List.mem_cons.mp hitem with rfl | hitem
    · exact Function.update_self ..
    · rw [Function.update_of_ne (hnew item hitem)]
      exact hp.value item hitem
  · intro k v hk
    by_cases hkp : k = key m p
    · exact ⟨_, List.mem_cons_self .., hkp.symm⟩
    · rw [Function.update_of_ne hkp] at hk
      obtain ⟨item, hitem, hkey⟩ := hp.found k v hk
      exact ⟨item, List.mem_cons_of_mem _ hitem, hkey⟩
  · exact hp.distinct.cons hnew

theorem congr (hp : Published stored h m)
    (same : ∀ item ∈ h.items, key m' item.2 = key m item.2 ∧
      EntryHeader.value m' item.2 = EntryHeader.value m item.2) : Published stored h m' where
  hashed item hitem := by
    rw [(same item hitem).1]
    exact hp.hashed item hitem
  value item hitem := by
    rw [(same item hitem).1, (same item hitem).2]
    exact hp.value item hitem
  found k v hk := by
    obtain ⟨item, hitem, hkey⟩ := hp.found k v hk
    exact ⟨item, hitem, (same item hitem).1.trans hkey⟩
  distinct := hp.distinct.congr fun item hitem => (same item hitem).1

end Published

/-! ### Calls -/

theorem stored_putEvents (hoom : w.system.answers.hashmapOom = false) :
    (ledger (extend history i (putEvents c w p))).stored =
      Function.update (ledger history).stored (requestOf .put c w.memory p).key
        (some (requestOf .put c w.memory p).value) := by
  rw [putEvents, if_neg (by simp [hoom]), ← List.singleton_append, extend_append, ledger_extend,
    ledger_extend]
  rfl

theorem stored_deleteEvents : (ledger (extend history i (deleteEvents c w p))).stored =
    Function.update (ledger history).stored (requestOf .delete c w.memory p).key none := by
  rw [deleteEvents, ← List.singleton_append, extend_append, ledger_extend, ledger_extend]
  rfl

/- The key of a GET or DELETE, as its header in the key block has it. -/
theorem Connection.Keyed.key_eq {t : RequestType} (h : c.Keyed w history i) (hp : c.Placed)
    (state : c.state = .receivingBody) (type : c.requestType = some t) (entry : c.entryHeader = some p)
    (hput : t ≠ .put) : key w.memory p = (requestOf t c w.memory p).key := by
  have hblock : p.block ≠ .ring := fun hring => by
    cases type.symm.trans ((hp state p entry).mpr hring)
    exact hput rfl
  obtain ⟨block, offset⟩ := p
  cases block with
  | ring => exact absurd rfl hblock
  | key n =>
    have hn : c.keyBlock = some n := by
      unfold Connection.keyBlock
      rw [state, entry]
    have hheld := h n hn
    cases entry.symm.trans hheld.entry
    rw [key, hheld.size]
    rfl

theorem stored_allocated (e : Option Slot) :
    (ledger (extend history i (e.map fun e => Event.allocated e.pointer).toList)).stored =
      (ledger history).stored := by
  cases e with
  | none =>
    show (ledger (extend history i [])).stored = _
    rw [extend_nil]
  | some e =>
    show (ledger (extend history i [.allocated e.pointer])).stored = _
    rw [ledger_extend]
    rfl

theorem Spares.same_value {e : Slot} (hs : Spares e w o) (hh : HeaderAt w.memory e) :
    key o.world.memory e.pointer = key w.memory e.pointer ∧
      value o.world.memory e.pointer = value w.memory e.pointer :=
  ⟨hs.same.key hh, hs.same.value hh⟩

theorem Transferred.published (ht : Transferred c w o) (hb : Base w es H F c.lock c.region)
    (hitems : ∀ item ∈ w.system.hashmap.items, ∃ e ∈ es, e.pointer = item.2 ∧ c.region ≠ some e)
    (hpub : Published (ledger history).stored w.system.hashmap w.memory) :
    Published (ledger (extend history i o.events)).stored o.world.system.hashmap o.world.memory := by
  rw [ht.hashmap_eq, stored_silent ht.silent]
  refine hpub.congr fun item hitem => ?_
  obtain ⟨e, he, hp, hne⟩ := hitems item hitem
  rw [← hp]
  exact (ht.spares hb he hne).same_value (hb.header he)

theorem Effect.published (he : Effect c w o) (hp : c.Placed) (hc : c.Careful w F)
    (hb : Base w es H F c.lock c.region) (hkeyed : c.Keyed w history i)
    (hd : c.state = .receivingBody → ∀ p, c.entryHeader = some p →
      Distinguished w.system.hashmap w.memory p)
    (hitems : ∀ item ∈ w.system.hashmap.items,
      ∃ e ∈ es, e.pointer = item.2 ∧ ¬ c.Evicts w e ∧ c.region ≠ some e)
    (hpub : Published (ledger history).stored w.system.hashmap w.memory) :
    Published (ledger (extend history i o.events)).stored o.world.system.hashmap o.world.memory := by
  have hsame : ∀ item ∈ w.system.hashmap.items,
      key o.world.memory item.2 = key w.memory item.2 ∧
        value o.world.memory item.2 = value w.memory item.2 := by
    obtain ⟨es', -, hkeeps⟩ := he.base hc hb
    intro item hitem
    obtain ⟨e, hmem, hp, hevicts, hne⟩ := hitems item hitem
    rw [← hp]
    exact ((hkeeps e hmem hevicts).2 hne).same_value (hb.header hmem)
  cases he with
  | transferred same =>
    refine same.published hb (fun item hitem => ?_) hpub
    obtain ⟨e, hmem, hp, -, hne⟩ := hitems item hitem
    exact ⟨e, hmem, hp, hne⟩
  | allocated expiry state type free call world lock region events =>
    rw [free.1, free.2] at hb
    obtain ⟨kept, hleaves, -⟩ := hb.allocate (ByteArea.loadLE_lt ..) (ByteArea.loadLE_lt ..)
      (fun hsize => hc.sizes ⟨state, type, hsize⟩)
      (fun hsize e he => hc.evicts e ⟨⟨state, type, hsize⟩, he⟩) call
    have hhashmap : o.world.system.hashmap = w.system.hashmap := by
      rw [world]
      exact hleaves.hashmap
    rw [hhashmap, events, stored_allocated]
    exact hpub.congr hsame
  | acquired state type free target available ring queue hashmap lock region silent =>
    rw [hashmap, stored_silent silent]
    exact hpub.congr hsame
  | @stored p e state type entry region free complete world lock dropped responds events =>
    have hdist := hd state p entry
    have hmemory : o.world.memory = w.memory := by rw [world, hc.put_memory state type entry]
    rw [hmemory, events, world, put_hashmap, Hashmap.set]
    cases hoom : w.system.answers.hashmapOom with
    | true =>
      rw [if_pos rfl, putEvents, if_pos hoom, stored_silent ⟨rfl, rfl⟩]
      exact hpub
    | false =>
      rw [if_neg (by simp), stored_putEvents hoom,
        requestOf_put region (hb.header (hb.fills e region).1) entry]
      have hinserted := (hpub.erase hdist).insert (Function.update_self ..)
      rw [Function.update_idem] at hinserted
      exact hinserted
  | @deleted p state type entry free ring queue hashmap lock region events =>
    have hkey : (requestOf .delete c w.memory p).key = key w.memory p :=
      (hkeyed.key_eq hp state type entry (by decide)).symm
    rw [hashmap, delete_hashmap, ring, hc.delete_memory state type entry, events, stored_deleteEvents, hkey]
    exact hpub.erase (hd state p entry)
/-- A call whose key is not taken for another one keeps the index and the ledger in step. -/
theorem ConnectionCall.published {call : ConnectionCall} (hc : c.Valid) (hp : c.Placed)
    (careful : call.Careful c w F) (hb : Base w es H F c.lock c.region) (hkeyed : c.Keyed w history i)
    (hd : ∀ r ∈ call.reached c w, r.1.state = .receivingBody → ∀ p, r.1.entryHeader = some p →
      Distinguished r.2.system.hashmap r.2.memory p)
    (hitems : ∀ item ∈ w.system.hashmap.items,
      ∃ e ∈ es, e.pointer = item.2 ∧ ¬ call.Evicts c w e ∧ c.region ≠ some e)
    (hpub : Published (ledger history).stored w.system.hashmap w.memory) (hrun : call.run c w = .ok o) :
    Published (ledger (extend history i o.events)).stored o.world.system.hashmap o.world.memory := by
  have hreturns := call.returns hrun
  cases hreturns with
  | transferred socket transfer =>
    refine (connectionTransfer_effect hc hp transfer).published hb (fun item hitem => ?_) hpub
    obtain ⟨e, he, hpointer, -, hne⟩ := hitems item hitem
    exact ⟨e, he, hpointer, hne⟩
  | @completed o₁ o₂ socket transfer success complete event =>
    have hopen : o₁.result ≠ .disconnect := by rw [success]; decide
    have hreach := ConnectionCall.reached_of_transfer transfer success complete
    have hvalid := connectionTransfer_valid hc transfer hopen
    have hplaced := connectionTransfer_placed hc hp transfer hopen
    have heffect := connectionTransfer_effect hc hp transfer
    obtain ⟨hbase, -⟩ := heffect.base hb
    have hpub₁ : Published (ledger (extend history i o₁.events)).stored o₁.world.system.hashmap
        o₁.world.memory := by
      refine heffect.published hb (fun item hitem => ?_) hpub
      obtain ⟨e, he, hpointer, -, hne⟩ := hitems item hitem
      exact ⟨e, he, hpointer, hne⟩
    rw [o₁.lock_eq hopen, o₁.region_eq hopen] at hbase
    show Published (ledger (extend history i (o₁.events ++ o₂.events))).stored _ _
    rw [extend_append]
    refine (connectionEvent_effect hvalid hplaced complete event).published hplaced (careful _ hreach)
      hbase (connectionTransfer_keyed hc hp hkeyed transfer hopen) (hd _ hreach) (fun item hitem => ?_) hpub₁
    rw [heffect.hashmap_eq] at hitem
    obtain ⟨e, he, hpointer, hevicts, hne⟩ := hitems item hitem
    refine ⟨e, he, hpointer, fun hv => hevicts ⟨_, hreach, hv⟩, fun hr => ?_⟩
    exact (heffect.spares hb he hne).region ((o₁.region_eq hopen).trans hr)
  | retriedRead retry =>
    refine (connectionUnblockRead_effect hc retry).published hp (careful _ rfl) hb hkeyed (hd _ rfl)
      (fun item hitem => ?_) hpub
    obtain ⟨e, he, hpointer, hevicts, hne⟩ := hitems item hitem
    exact ⟨e, he, hpointer, fun hv => hevicts ⟨_, rfl, hv⟩, hne⟩
  | retriedWrite retry =>
    refine (connectionUnblockWrite_effect hc retry).published hp (careful _ rfl) hb hkeyed (hd _ rfl)
      (fun item hitem => ?_) hpub
    obtain ⟨e, he, hpointer, hevicts, hne⟩ := hitems item hitem
    exact ⟨e, he, hpointer, fun hv => hevicts ⟨_, rfl, hv⟩, hne⟩

end

end CacheServer
