import CacheServer.Index.TableCalls
import CacheServer.Sharing.Delivery
import CacheServer.Sharing.Linearized

/-!
# The server over the hash table

Connections in any order, as in Connections, with hashmap.c below them. Beside
every run there is one over the associative array, whose index holds the items
of the table. What is proved of the server over the array therefore holds of the
server as it is.
-/

namespace CacheServer.RobinHood
open EntryHeader

/-! ### Connections in any order -/

structure TableConnections where
  world : World TableSystem
  get : Nat → Option Connection
  accepted : Nat
  history : List (Nat × Event)

inductive TableAction where
  | accept (fileDescriptor : Nat) (header arguments : ByteArea)
  | answer (answers : TableAnswers)
  | call (i : Nat) (call : ConnectionCall)

def tableConnectionsOpen (table : Hashmap Pointer) (capacityBytes : Nat) (memory : Memory) :
    TableConnections where
  world := ⟨memory, memoryQueueOpen capacityBytes, table, ⟨false, ⟨true, true⟩, 0, 0⟩, [], 0⟩
  get := fun _ => none
  accepted := 0
  history := []

namespace TableConnections

def after (t : TableConnections) (i : Nat) (o : Outcome TableSystem) : TableConnections where
  world := o.world
  get j := if j = i then (if o.result = .disconnect then none else some o.connection) else t.get j
  accepted := t.accepted
  history := t.history ++ o.events.map fun event => (i, event)

def accept (t : TableConnections) (c : Connection) : TableConnections :=
  { t with
    get := fun j => if j = t.accepted then some c else t.get j
    accepted := t.accepted + 1 }

def step (t : TableConnections) : TableAction → Except Fault TableConnections
  | .accept fileDescriptor header arguments =>
    .ok (t.accept (connectionInit fileDescriptor header arguments))
  | .answer answers =>
    .ok { t with world := { t.world with system := { t.world.system with answers } } }
  | .call i call =>
    match t.get i with
    | none => .error .useAfterFree
    | some c =>
      match runOver call c t.world with
      | .error fault => .error fault
      | .ok o => .ok (t.after i o)

/-- The connections over an associative array. -/
def overArray (h : CacheServer.Hashmap) (oom : Bool) (t : TableConnections) : Connections :=
  ⟨withArray h oom t.world, t.get, t.accepted, t.history⟩

/-- The connections without their index. -/
def view (t : TableConnections) : Connections := t.overArray ⟨indexHash, []⟩ false

end TableConnections

/-- Among connections that fill the regions `F` and wait for the entries `A`: the size of a new
entry does not wrap; the entry evicts no region that is being filled, no entry of the table and
none that is waited for; the key that is looked up is in the set, and the table has room. -/
structure Proper (keys : Set (List UInt8)) (c : Connection) (w : World TableSystem)
    (F : Slot → Prop) (A : Pointer → Prop) : Prop where
  sizes : c.Allocates (withArray ⟨indexHash, []⟩ false w) →
    entryHeaderSize + c.keySize + c.valueSize < 2 ^ 32
  evicts : ∀ e, c.Evicts (withArray ⟨indexHash, []⟩ false w) e →
    ¬ F e ∧ ¬ A e.pointer ∧ ∀ x ∈ w.system.hashmap.items, x.2 ≠ e.pointer
  looksUp : c.LooksUp → w.system.hashmap.count + 1 < dibSize ∧
    ∀ p, c.entryHeader = some p → key w.memory p ∈ keys

namespace TableConnections

def Proper (keys : Set (List UInt8)) (t : TableConnections) : TableAction → Prop
  | .accept .. | .answer _ => True
  | .call i call => ∀ c ∈ t.get i, ∀ r ∈ reachedOver call c t.world,
    RobinHood.Proper keys r.1 r.2 (t.view.FilledElsewhere i) t.view.Awaited

/-- What the array is told, and what is then done over it. -/
def onArray (t : TableConnections) : TableAction → List Action
  | .accept fileDescriptor header arguments => [.accept fileDescriptor header arguments]
  | .answer answers =>
    [.answer ⟨answers.mallocFails, false, answers.timestamp, answers.entryExpiryMicros,
      false⟩]
  | .call i call =>
    [.answer (withArray ⟨indexHash, []⟩ (growthFails t.world) t.world).system.answers, .call i call]

end TableConnections

/-- The states of a run that starts with the table of `entry_hash_map_open`. -/
inductive TableServerRun (keys : Set (List UInt8)) (capacityBytes : Nat) (memory : Memory) :
    TableConnections → Prop
  | opened {mallocs : Mallocs} {table : Hashmap Pointer}
      (new : entryHashMapOpen mallocs = .ok (some table)) :
      TableServerRun keys capacityBytes memory (tableConnectionsOpen table capacityBytes memory)
  | stepped {t t' : TableConnections} (a : TableAction)
      (run : TableServerRun keys capacityBytes memory t) (proper : t.Proper keys a)
      (step : t.step a = .ok t') : TableServerRun keys capacityBytes memory t'

/-! ### The index of a server that delivers -/

section
variable {keys : Set (List UInt8)} {h : CacheServer.Hashmap} {m : Memory} {es : List Slot}
  {stored : List UInt8 → Option (List UInt8)} {history : List (Nat × Event)}
  {c c' : Connection} {w w' : World System} {H : Pointer → Nat} {F : Slot → Prop}
  {call : ConnectionCall}

theorem flagOutside_of_apart {x y : Slot} (ha : x = y ∨ x.Apart y) (hy : HeaderAt m y) :
    FlagOutside m x.pointer y.pointer := by
  intro _
  change x.offset < y.offset + 12 ∨ y.offset + 16 + keySize m y.pointer ≤ x.offset
  have hx := x.header_le
  have hstop : y.stop = y.offset + (16 + y.keySize + y.valueSize) := rfl
  rw [hy.keySize]
  rcases ha with rfl | ha | ha
  · exact Or.inl (by omega)
  · exact Or.inl (by omega)
  · exact Or.inr (by omega)

/-- An index that leads to what is stored is a map on the keys. -/
theorem Published.isMap (hp : Published stored h m)
    (hlegal : ∀ k v, stored k = some v → k ∈ keys) (hhash : h.hash = indexHash)
    (hes : ∀ item ∈ h.items, ∃ e ∈ es, e.pointer = item.2)
    (hapart : ∀ x ∈ es, ∀ y ∈ es, x = y ∨ x.Apart y) (hheader : ∀ e ∈ es, HeaderAt m e) :
    ∃ M, Stored indexHash keys M h m := by
  refine ⟨fun k => (h.items.find? fun item => decide (key m item.2 = k)).map Prod.snd, hhash,
    fun item hitem => ⟨?_, hlegal _ _ (hp.value item hitem)⟩, hp.distinct, fun k p => ?_,
    fun x hx y hy => ?_⟩
  · rw [hp.hashed item hitem, hhash]
  · constructor
    · intro hk
      obtain ⟨item, hfind, rfl⟩ := Option.map_eq_some_iff.mp hk
      exact ⟨item, List.mem_of_find?_eq_some hfind, rfl, by simpa using List.find?_some hfind⟩
    · rintro ⟨item, hitem, rfl, hk⟩
      have hfind := hp.distinct.find? (p := fun item => decide (key m item.2 = k))
        (fun y _ => decide_eq_true_iff) hitem hk
      simp only [hfind, Option.map_some]
  · obtain ⟨e, he, hex⟩ := hes x hx
    obtain ⟨f, hf, hfy⟩ := hes y hy
    rw [← hex, ← hfy]
    exact flagOutside_of_apart (hapart e he f hf) (hheader f hf)

/-- A call stores nothing but what it was asked to. -/
theorem Effect.legal {i : Nat} {o : Outcome System} (he : Effect c w o)
    (hb : Base w es H F c.lock c.region)
    (hasked : c.LooksUp → ∀ p, c.entryHeader = some p → key w.memory p ∈ keys)
    (hlegal : ∀ k v, (ledger history).stored k = some v → k ∈ keys) :
    ∀ k v, (ledger (extend history i o.events)).stored k = some v → k ∈ keys := by
  intro k v hk
  cases he with
  | transferred same =>
    rw [stored_silent same.silent] at hk
    exact hlegal k v hk
  | allocated expiry state type free call world lock region events =>
    rw [events, stored_allocated] at hk
    exact hlegal k v hk
  | acquired state type free target available ring queue hashmap lock region silent =>
    rw [stored_silent silent] at hk
    exact hlegal k v hk
  | @stored p e state type entry region free complete world lock dropped responds events =>
    rw [events] at hk
    cases hoom : w.system.answers.hashmapOom with
    | true =>
      rw [putEvents, if_pos hoom, stored_silent ⟨rfl, rfl⟩] at hk
      exact hlegal k v hk
    | false =>
      rw [stored_putEvents hoom, requestOf_put region (hb.header (hb.fills e region).1) entry] at hk
      by_cases hkp : k = key w.memory p
      · rw [hkp]
        exact hasked (Or.inl state) p entry
      · rw [Function.update_of_ne hkp] at hk
        exact hlegal k v hk
  | @deleted p state type entry free ring queue hashmap lock region events =>
    rw [events, stored_deleteEvents] at hk
    by_cases hkp : k = (requestOf .delete c w.memory p).key
    · rw [hkp, Function.update_self] at hk
      cases hk
    · rw [Function.update_of_ne hkp] at hk
      exact hlegal k v hk

theorem ConnectionCall.legal {i : Nat} {o : Outcome System} (hc : c.Valid) (hp : c.Placed)
    (hb : Base w es H F c.lock c.region)
    (hasked : ∀ r, call.reached c w = some r → r.1.LooksUp →
      ∀ p, r.1.entryHeader = some p → key r.2.memory p ∈ keys)
    (hlegal : ∀ k v, (ledger history).stored k = some v → k ∈ keys) (hrun : call.run c w = .ok o) :
    ∀ k v, (ledger (extend history i o.events)).stored k = some v → k ∈ keys := by
  rcases call.run_effect hc hp hrun with ⟨ht, -⟩ | ⟨o₁, o₂, ht, -, hreach, he, rfl, -⟩
  · intro k v hk
    rw [stored_silent ht.silent] at hk
    exact hlegal k v hk
  · have hbase := ConnectionCall.reached_base hreach hc hp hb
    change ∀ k v, (ledger (extend history i (o₁.events ++ o₂.events))).stored k = some v → k ∈ keys
    rw [extend_append]
    refine Effect.legal he hbase (hasked _ hreach) fun k v hk => ?_
    rw [stored_silent ht.silent] at hk
    exact hlegal k v hk

/-- The index and the region of a connection where its call comes to the switch. -/
theorem reached_published (hc : c.Valid) (hp : c.Placed) (hb : Base w es H F c.lock c.region)
    (hitems : ∀ item ∈ w.system.hashmap.items, ∃ e ∈ es, e.pointer = item.2 ∧ c.region ≠ some e)
    (hpub : Published (ledger history).stored w.system.hashmap w.memory)
    (hreach : call.reached c w = some (c', w')) :
    Published (ledger history).stored w'.system.hashmap w'.memory ∧ c'.Placed ∧
      (c'.region = c.region ∨ c'.region = none) := by
  cases call with
  | unblockRead | unblockWrite =>
    cases hreach
    exact ⟨hpub, hp, Or.inl rfl⟩
  | proc socket =>
    obtain ⟨events, ht⟩ := ConnectionCall.reached_proc hreach
    have heffect := connectionTransfer_effect hc hp ht
    have hpub' := heffect.published (i := 0) hb hitems hpub
    rw [stored_silent heffect.silent] at hpub'
    exact ⟨hpub', connectionTransfer_placed hc hp ht (by simp), heffect.region_cases⟩

end

/-- The array beside the table. -/
structure TableConnections.Beside (keys : Set (List UInt8)) (t : TableConnections)
    (h : CacheServer.Hashmap) : Prop where
  indexes : Indexes t.world.system.hashmap h
  hash_eq : h.hash = indexHash
  legal : ∀ k v, (ledger t.history).stored k = some v → k ∈ keys

section
variable {keys : Set (List UInt8)} {t t' : TableConnections} {h : CacheServer.Hashmap} {oom : Bool}
  {es : List Slot} {i : Nat} {c c' : Connection} {call : ConnectionCall} {w' : World TableSystem}
  {o : Outcome TableSystem} {a : TableAction}

theorem reachedOver_system (hreach : reachedOver call c t.world = some (c', w')) :
    w'.system = t.world.system := by
  cases call with
  | unblockRead | unblockWrite =>
    cases hreach
    rfl
  | proc socket =>
    obtain ⟨events, ht⟩ := reachedOver_proc hreach
    exact connectionTransfer_system ht rfl

theorem reached_overArray (h : CacheServer.Hashmap) (oom : Bool)
    (hreach : reachedOver call c t.world = some (c', w')) :
    call.reached c (t.overArray h oom).world = some (c', withArray h oom w') := by
  change call.reached c (withArray h oom t.world) = _
  rw [reached_array, hreach]
  rfl

/-- What a proper call finds where it comes to the switch. -/
theorem TableConnections.Beside.ready (hb : t.Beside keys h) (hd : (t.overArray h oom).Delivers es)
    (hsep : Separates indexHash keys) (hc : t.get i = some c)
    (hreach : reachedOver call c t.world = some (c', w'))
    (proper : RobinHood.Proper keys c' w' (t.view.FilledElsewhere i) t.view.Awaited) :
    Ready keys h c' w' ∧
      c'.Exact (withArray h oom w') (t.view.FilledElsewhere i) t.view.Awaited := by
  have hreach' := reached_overArray h oom hreach
  have hc' : (t.overArray h oom).get i = some c := hc
  obtain ⟨hvalid, hplaced⟩ := hd.leads.owned.connection i c hc'
  have hbase := hd.leads.owned.base i
  rw [Connections.lock_eq hc', Connections.region_eq hc'] at hbase
  have hbase' := ConnectionCall.reached_base hreach' hvalid hplaced hbase
  have hitems : ∀ item ∈ h.items, ∃ e ∈ es, e.pointer = item.2 ∧ c.region ≠ some e := by
    intro item hitem
    obtain ⟨e, he, hpointer, hnobody, -⟩ := hd.leads.items item hitem
    refine ⟨e, he, hpointer, ?_⟩
    rw [← Connections.region_eq hc']
    exact hnobody i
  obtain ⟨hpub, hplaced', hregion⟩ :=
    reached_published hvalid hplaced hbase hitems hd.published hreach'
  have hsystem := reachedOver_system hreach
  have hindexes : Indexes w'.system.hashmap h := by
    rw [hsystem]
    exact hb.indexes
  obtain ⟨M, hstored⟩ := Published.isMap (m := w'.memory) hpub hb.legal hb.hash_eq
    (fun item hitem => by
      obtain ⟨e, he, hpointer, -⟩ := hitems item hitem
      exact ⟨e, he, hpointer⟩)
    (fun x hx y hy => hbase'.apart hx hy) (fun e he => hbase'.header he)
  have hasked : c'.LooksUp → ∀ p, c'.entryHeader = some p → Asked keys M h w' p := fun hl p hp =>
    ⟨hindexes, hstored, (proper.looksUp hl).2 p hp, (proper.looksUp hl).1⟩
  constructor
  · refine ⟨hindexes, ⟨es, hbase'.ring, hbase'.inactive⟩, fun hl => ⟨M, hasked hl⟩,
      fun state type p hp x hx => ?_⟩
    have hslot := region_eq_some state type hp ((hplaced' state p hp).mp type)
    have hown := region_pointer hslot hp
    obtain ⟨e, he, hpointer, hne⟩ := hitems x ((mem_items hindexes).mp hx)
    have hmem := (hbase'.fills _ hslot).1
    have hother : c.region = some ⟨p.offset, c'.keySize, c'.valueSize⟩ := by
      rcases hregion with hr | hr
      · rw [← hr]
        exact hslot
      · cases hr.symm.trans hslot
    rw [← hown, ← hpointer]
    exact ⟨flagOutside_of_apart (hbase'.apart hmem he) (hbase'.header he),
      flagOutside_of_apart (hbase'.apart he hmem) (hbase'.header hmem)⟩
  · refine ⟨proper.sizes, fun e he => ?_, fun hl p hp item hitem hfound => ?_⟩
    · obtain ⟨hF, hA, hnot⟩ := proper.evicts e he
      exact ⟨hF, hA, fun item hitem => hnot item ((mem_items hindexes).mpr hitem)⟩
    · exact (hstored.found_iff hsep (hasked hl p hp).mem hitem).mp hfound

theorem perform_singleton (a : Action) (s : Connections) : Connections.perform [a] s = s.step a := by
  rw [Connections.perform]
  cases s.step a with
  | error fault => rfl
  | ok s' => rfl

/-- A call over the table, and the same call over the array that fails to grow when the table
does. -/
theorem TableConnections.Beside.called (hb : t.Beside keys h)
    (hd : (t.overArray h (growthFails t.world)).Delivers es) (hsep : Separates indexHash keys)
    (proper : t.Proper keys (.call i call)) :
    (t.overArray h (growthFails t.world)).Exact (.call i call) ∧
      ∃ h', (t.overArray h (growthFails t.world)).step (.call i call) =
          (t.step (.call i call)).map (TableConnections.overArray h' (growthFails t.world)) ∧
        ∀ t', t.step (.call i call) = .ok t' → t'.Beside keys h' := by
  have hfrom : ∀ c r, call.reached c (t.overArray h (growthFails t.world)).world = some r →
      ∃ r', reachedOver call c t.world = some r' ∧
        r = (r'.1, withArray h (growthFails t.world) r'.2) := by
    intro c r hr
    change call.reached c (withArray h (growthFails t.world) t.world) = _ at hr
    rw [reached_array] at hr
    obtain ⟨r', hr', rfl⟩ := Option.map_eq_some_iff.mp hr
    exact ⟨r', hr', rfl⟩
  have hready : ∀ c, t.get i = some c → ∀ r, reachedOver call c t.world = some r →
      Ready keys h r.1 r.2 ∧ r.1.Exact (withArray h (growthFails t.world) r.2)
        (t.view.FilledElsewhere i) t.view.Awaited :=
    fun c hc r hr => hb.ready hd hsep hc hr (proper c hc r hr)
  constructor
  · intro c hc r hr
    obtain ⟨r', hr', rfl⟩ := hfrom c r hr
    exact (hready c hc r' hr').2
  · cases hc : t.get i with
    | none =>
      have hc' : (t.overArray h (growthFails t.world)).get i = none := hc
      refine ⟨h, ?_, fun t' hstep => ?_⟩
      · simp only [Connections.step, TableConnections.step, hc, hc']
        rfl
      · simp only [TableConnections.step, hc] at hstep
        cases hstep
    | some c =>
      have hc' : (t.overArray h (growthFails t.world)).get i = some c := hc
      obtain ⟨h', hsame, hhash, hindexes⟩ :=
        runOver_array hsep hb.indexes fun r hr => (hready c hc r hr).1
      change call.run c (t.overArray h (growthFails t.world)).world = _ at hsame
      refine ⟨h', ?_, fun t' hstep => ?_⟩
      · simp only [Connections.step, TableConnections.step, hc, hc', hsame]
        cases runOver call c t.world with
        | error fault => rfl
        | ok o => rfl
      · simp only [TableConnections.step, hc] at hstep
        cases ho : runOver call c t.world with
        | error fault =>
          rw [ho] at hstep
          cases hstep
        | ok o =>
          rw [ho] at hstep hsame
          cases hstep
          have hrun : call.run c (t.overArray h (growthFails t.world)).world =
            .ok (RobinHood.overArray h' (growthFails t.world) o) := hsame
          obtain ⟨hvalid, hplaced⟩ := hd.leads.owned.connection i c hc'
          have hbase := hd.leads.owned.base i
          rw [Connections.lock_eq hc', Connections.region_eq hc'] at hbase
          refine ⟨hindexes o ho, hhash.trans hb.hash_eq, ?_⟩
          refine ConnectionCall.legal hvalid hplaced hbase (fun r hr hl p hp => ?_) hb.legal hrun
          obtain ⟨r', hr', rfl⟩ := hfrom c r hr
          exact ((proper c hc r' hr').looksUp hl).2 p hp

theorem TableConnections.Beside.answered (hd : (t.overArray h oom).Delivers es) :
    ∃ es', (t.overArray h (growthFails t.world)).Delivers es' :=
  hd.step (a := .answer (withArray ⟨indexHash, []⟩ (growthFails t.world) t.world).system.answers)
    trivial rfl

/-- A step over the table, and the steps over the array. -/
theorem TableConnections.Beside.step (hb : t.Beside keys h) (hd : (t.overArray h oom).Delivers es)
    (hsep : Separates indexHash keys) (proper : t.Proper keys a) :
    ∃ h' oom', Connections.perform (t.onArray a) (t.overArray h oom) =
        (t.step a).map (TableConnections.overArray h' oom') ∧
      ∀ t', t.step a = .ok t' → t'.Beside keys h' ∧
        ∀ hash capacityBytes memory, ExactRun hash capacityBytes memory (t.overArray h oom) →
          ExactRun hash capacityBytes memory (t'.overArray h' oom') := by
  cases a with
  | accept fileDescriptor header arguments =>
    refine ⟨h, oom, rfl, fun t' hstep => ?_⟩
    cases hstep
    exact ⟨⟨hb.indexes, hb.hash_eq, hb.legal⟩, fun hash capacityBytes memory run =>
      .stepped (.accept fileDescriptor header arguments) run trivial rfl⟩
  | answer answers =>
    refine ⟨h, false, rfl, fun t' hstep => ?_⟩
    cases hstep
    exact ⟨⟨hb.indexes, hb.hash_eq, hb.legal⟩, fun hash capacityBytes memory run =>
      .stepped (.answer ⟨answers.mallocFails, false, answers.timestamp, answers.entryExpiryMicros,
      false⟩)
        run trivial rfl⟩
  | call i call =>
    have hanswered : (t.overArray h oom).step
        (.answer (withArray ⟨indexHash, []⟩ (growthFails t.world) t.world).system.answers) =
      .ok (t.overArray h (growthFails t.world)) := rfl
    have hperform : Connections.perform (t.onArray (.call i call)) (t.overArray h oom) =
      (t.overArray h (growthFails t.world)).step (.call i call) := perform_singleton (.call i call) _
    obtain ⟨es', hd'⟩ := Beside.answered hd
    obtain ⟨hexact, h', hsame, hbeside⟩ := hb.called hd' hsep proper
    refine ⟨h', growthFails t.world, hperform.trans hsame, fun t' hstep => ⟨hbeside t' hstep, ?_⟩⟩
    intro hash capacityBytes memory run
    rw [hstep] at hsame
    exact .stepped _ (GuardedRun.stepped (.answer _) run trivial hanswered) hexact hsame

end

/-! ### A run with one key -/

section
variable {keys : Set (List UInt8)} {c : Connection} {w : World TableSystem} {F : Slot → Prop}
  {A : Pointer → Prop}

theorem proper_iff : Proper keys c w F A ↔
    (c.Allocates (withArray ⟨indexHash, []⟩ false w) →
      entryHeaderSize + c.keySize + c.valueSize < 2 ^ 32 ∧
      ∀ e ∈ victims (withArray ⟨indexHash, []⟩ false w).store (totalSize c.keySize c.valueSize),
        ¬ F e ∧ ¬ A e.pointer ∧ ∀ x ∈ w.system.hashmap.items, x.2 ≠ e.pointer) ∧
    (c.LooksUp → w.system.hashmap.count + 1 < dibSize ∧ ∀ p ∈ c.entryHeader, key w.memory p ∈ keys) := by
  constructor
  · intro h
    exact ⟨fun ha => ⟨h.sizes ha, fun e he => h.evicts e ⟨ha, he⟩⟩, h.looksUp⟩
  · rintro ⟨hallocates, hlooks⟩
    exact ⟨fun ha => (hallocates ha).1, fun e he => (hallocates he.1).2 e he.2, hlooks⟩

instance (keys : Set (List UInt8)) [DecidablePred (· ∈ keys)] (c : Connection) (w : World TableSystem)
    (F : Slot → Prop) (A : Pointer → Prop) [DecidablePred F] [DecidablePred A] :
    Decidable (Proper keys c w F A) := decidable_of_iff _ proper_iff.symm

instance (keys : Set (List UInt8)) [DecidablePred (· ∈ keys)] (t : TableConnections) :
    (a : TableAction) → Decidable (t.Proper keys a)
  | .accept .. | .answer _ => inferInstanceAs (Decidable True)
  | .call i call => inferInstanceAs (Decidable (∀ c ∈ t.get i, ∀ r ∈ reachedOver call c t.world,
      Proper keys r.1 r.2 (t.view.FilledElsewhere i) t.view.Awaited))

/-- The state after some actions, if they are all proper. -/
def properly (keys : Set (List UInt8)) [DecidablePred (· ∈ keys)] :
    List TableAction → TableConnections → Option TableConnections
  | [], t => some t
  | a :: as, t =>
    if t.Proper keys a then
      match t.step a with
      | .ok t' => properly keys as t'
      | .error _ => none
    else none

theorem properly_run [DecidablePred (· ∈ keys)] {capacityBytes : Nat} {memory : Memory}
    {as : List TableAction} {t t' : TableConnections} (run : TableServerRun keys capacityBytes memory t)
    (h : properly keys as t = some t') : TableServerRun keys capacityBytes memory t' := by
  induction as generalizing t with
  | nil =>
    cases h
    exact run
  | cons a as ih =>
    rw [properly] at h
    split at h
    · rename_i hproper
      split at h
      · rename_i t₁ hstep
        exact ih (.stepped a run hproper hstep) h
      · cases h
    · cases h

end

/-- The one key of the run below. -/
def oneKey : Set (List UInt8) := {k | k = [97]}

instance : DecidablePred (· ∈ oneKey) := fun k => inferInstanceAs (Decidable (k = [97]))

theorem oneKey_separated : Separates indexHash oneKey := by
  rintro k1 rfl k2 rfl _ _ hc
  exact absurd rfl (confused_ne hc)

/-- `PUT a = b` and `GET a` on one connection, with the answer to it. -/
def putsAndGets : List TableAction :=
  let receives bytes := .call 0 (.proc ⟨bytes, false, 0, false⟩)
  let sends count := .call 0 (.proc ⟨[], false, count, false⟩)
  [.accept 5 (fun _ => 0) fun _ => 0, receives [1, 0, 1, 2], receives [1, 0, 1, 0, 0, 0],
    receives [97, 98], sends 1, receives [1, 0, 1, 1], receives [1, 0], receives [97], sends 5,
    sends 1]

theorem putsAndGets_run : ∃ t, TableServerRun oneKey 64 (fun _ _ => 0) t ∧
    t.world.system.hashmap.count = 1 ∧ (ledger t.history).stored [97] = some [98] ∧
    t.view.reading 0 = some ⟨[97], some [98], valueResponse [98]⟩ := by
  have hnew : entryHashMapOpen ⟨true, true⟩ = .ok (some emptyTable) := rfl
  have hrun : ∃ t ∈ properly oneKey putsAndGets (tableConnectionsOpen emptyTable 64 fun _ _ => 0),
      t.world.system.hashmap.count = 1 ∧ (ledger t.history).stored [97] = some [98] ∧
      t.view.reading 0 = some ⟨[97], some [98], valueResponse [98]⟩ := by
    decide +kernel
  obtain ⟨t, ht, hholds⟩ := hrun
  exact ⟨t, properly_run (.opened hnew) ht, hholds⟩

/-! ### Runs -/

section
variable {keys : Set (List UInt8)} {capacityBytes : Nat} {memory : Memory} {t : TableConnections}

theorem TableServerRun.beside (hcap : capacityBytes < 2 ^ 64) (hsep : Separates indexHash keys)
    (run : TableServerRun keys capacityBytes memory t) :
    ∃ h oom, t.Beside keys h ∧ ExactRun indexHash capacityBytes memory (t.overArray h oom) := by
  induction run with
  | @opened mallocs table new =>
    obtain ⟨hvalid, hzero⟩ := hashmapNew_valid (Nat.zero_le _) new
    exact ⟨⟨indexHash, []⟩, false, ⟨⟨hvalid, hzero.symm⟩, rfl, fun k v hk => by cases hk⟩, .opened⟩
  | stepped a run proper step ih =>
    obtain ⟨h, oom, hb, hrun⟩ := ih
    obtain ⟨es, hd⟩ := hrun.delivers hcap
    obtain ⟨h', oom', -, hnext⟩ := hb.step hd hsep proper
    obtain ⟨hbeside, hruns⟩ := hnext _ step
    exact ⟨h', oom', hbeside, hruns _ _ _ hrun⟩

/-- The server over the hash table does what the server over the associative array does, step by
step, faults included. -/
theorem tableServer_refines (hcap : capacityBytes < 2 ^ 64) (hsep : Separates indexHash keys)
    (run : TableServerRun keys capacityBytes memory t) :
    ∃ h oom, ExactRun indexHash capacityBytes memory (t.overArray h oom) ∧
      (h.items : Multiset (Nat × Pointer)) = t.world.system.hashmap.items ∧
      ∀ a, t.Proper keys a → ∃ h' oom', Connections.perform (t.onArray a) (t.overArray h oom) =
          (t.step a).map (TableConnections.overArray h' oom') ∧
        ∀ t', t.step a = .ok t' →
          (h'.items : Multiset (Nat × Pointer)) = t'.world.system.hashmap.items := by
  obtain ⟨h, oom, hb, hrun⟩ := run.beside hcap hsep
  obtain ⟨es, hd⟩ := hrun.delivers hcap
  refine ⟨h, oom, hrun, hb.indexes.items, fun a proper => ?_⟩
  obtain ⟨h', oom', hsame, hnext⟩ := hb.step hd hsep proper
  exact ⟨h', oom', hsame, fun t' hstep => (hnext t' hstep).1.indexes.items⟩

end

theorem tableServer_refines_run : ∃ t h oom, TableServerRun oneKey 64 (fun _ _ => 0) t ∧
    t.world.system.hashmap.count = 1 ∧
    ExactRun indexHash 64 (fun _ _ => 0) (TableConnections.overArray h oom t) := by
  obtain ⟨t, run, hcount, -⟩ := putsAndGets_run
  obtain ⟨h, oom, hrun, -⟩ := tableServer_refines (by decide) oneKey_separated run
  exact ⟨t, h, oom, run, hcount, hrun⟩

section
variable {keys : Set (List UInt8)} {capacityBytes : Nat} {memory : Memory} {t : TableConnections}

/-- Every item of the table leads to a live entry, received whole, with the value of the last PUT of
its key, and every key that has such a value is in the table. -/
theorem table_holds_stored (hcap : capacityBytes < 2 ^ 64) (hsep : Separates indexHash keys)
    (run : TableServerRun keys capacityBytes memory t) : t.world.system.hashmap.Valid ∧
      (∀ x ∈ t.world.system.hashmap.items, x.1 = indexHash (key t.world.memory x.2) ∧
        LastStored t.history (key t.world.memory x.2) (value t.world.memory x.2) ∧
        ∃ e ∈ liveEntries t.view.world.store, e.pointer = x.2 ∧ ∀ i, t.view.region i ≠ some e) ∧
      ∀ k v, LastStored t.history k v →
        ∃ x ∈ t.world.system.hashmap.items, key t.world.memory x.2 = k := by
  obtain ⟨h, oom, hb, hrun⟩ := run.beside hcap hsep
  obtain ⟨es, hd⟩ := hrun.delivers hcap
  refine ⟨hb.indexes.valid, fun x hx => ?_, fun k v hk => ?_⟩
  · have hx' := (mem_items hb.indexes).mp hx
    have hhash := hd.published.hashed x hx'
    obtain ⟨e, he, hpointer, hnobody, -⟩ := hd.leads.items x hx'
    have hlive : liveEntries t.view.world.store = es := hd.leads.owned.live_eq
    refine ⟨?_, ledger_stored_iff.mp (hd.published.value x hx'), e, ?_, hpointer, hnobody⟩
    · change x.1 = h.hash _ at hhash
      rw [hhash, hb.hash_eq]
      rfl
    · rw [hlive]
      exact he
  · obtain ⟨x, hx, hkey⟩ := hd.published.found k v (ledger_stored_iff.mpr hk)
    exact ⟨x, (mem_items hb.indexes).mpr hx, hkey⟩

end

theorem table_holds_stored_run : ∃ t, TableServerRun oneKey 64 (fun _ _ => 0) t ∧
    ∃ x ∈ t.world.system.hashmap.items, key t.world.memory x.2 = [97] ∧ x.1 = indexHash [97] := by
  obtain ⟨t, run, -, hstored, -⟩ := putsAndGets_run
  obtain ⟨-, hitems, hkeys⟩ := table_holds_stored (by decide) oneKey_separated run
  obtain ⟨x, hx, hkey⟩ := hkeys [97] [98] (ledger_stored_iff.mp hstored)
  obtain ⟨hhash, -⟩ := hitems x hx
  exact ⟨t, run, x, hx, hkey, hkey ▸ hhash⟩

/-- The call comes to the end of a value that its connection is sending. -/
def TableConnections.EndsValue (t : TableConnections) (i : Nat) (call : ConnectionCall) : Prop :=
  ∃ c, t.get i = some c ∧ c.state = .sendingBody ∧ reachedOver call c t.world ≠ none

section
variable {keys : Set (List UInt8)} {capacityBytes : Nat} {memory : Memory} {t : TableConnections}

/-- Every GET is answered with the value of the last PUT of its key, or with NOT_FOUND where there
is none, also over the hash table. -/
theorem table_gets_answered (hcap : capacityBytes < 2 ^ 64) (hsep : Separates indexHash keys)
    (run : TableServerRun keys capacityBytes memory t) : t.view.Delivered ∧
      ∀ i call t', t.EndsValue i call → t.step (.call i call) = .ok t' →
        ∃ r v, t'.view.reading i = some r ∧ r.value = some v ∧ v.length < 2 ^ 32 ∧
          r.sent = valueResponse v := by
  obtain ⟨h, oom, hb, hrun⟩ := run.beside hcap hsep
  obtain ⟨es, hd⟩ := hrun.delivers hcap
  refine ⟨?_, fun i call t' hends hstep => ?_⟩
  · obtain ⟨hwire, hstored, hsent, hanswering⟩ := hd.delivered
    exact ⟨hwire, hstored, hsent, hanswering⟩
  · obtain ⟨c, hc, state, hreach⟩ := hends
    obtain ⟨es', hd'⟩ := TableConnections.Beside.answered hd
    obtain ⟨⟨c', w'⟩, hsome⟩ := Option.ne_none_iff_exists'.mp hreach
    have harray := reached_overArray h (growthFails t.world) hsome
    have hstate : c'.state = .sendingBody := (ConnectionCall.reached_state harray).trans state
    have proper : t.Proper keys (.call i call) := by
      intro c₁ hc₁ r hr
      cases hc.symm.trans hc₁
      cases hsome.symm.trans hr
      refine ⟨fun ha => ?_, fun e he => ?_, fun hl => ?_⟩
      · rcases ha.1 with hs | hs <;> cases hstate.symm.trans hs
      · rcases he.1.1 with hs | hs <;> cases hstate.symm.trans hs
      · rcases hl with hs | hs <;> cases hstate.symm.trans hs
    obtain ⟨-, h', hsame, -⟩ := hb.called hd' hsep proper
    rw [hstep] at hsame
    have hends' : (t.overArray h (growthFails t.world)).EndsValue i call :=
      ⟨c, hc, state, by rw [harray]; simp⟩
    have hvalue := hd'.value_sent hends' hsame
    exact hvalue

end

theorem table_gets_answered_run : ∃ t, TableServerRun oneKey 64 (fun _ _ => 0) t ∧
    t.view.reading 0 = some ⟨[97], some [98], valueResponse [98]⟩ ∧ t.view.Delivered := by
  obtain ⟨t, run, -, -, hreading⟩ := putsAndGets_run
  exact ⟨t, run, hreading, (table_gets_answered (by decide) oneKey_separated run).1⟩

/-- The server is linearizable: every request that a connection has executed is answered as at some
instant since, by the map that PUT and DELETE change at theirs. -/
theorem table_linearizable {keys : Set (List UInt8)} {capacityBytes : Nat} {memory : Memory}
    {t : TableConnections} {i : Nat} {before rest : List (Nat × Event)} {request : Request}
    (hcap : capacityBytes < 2 ^ 64) (hsep : Separates indexHash keys)
    (run : TableServerRun keys capacityBytes memory t)
    (hhistory : t.history = before ++ (i, .executed request) :: rest) (hstill : Still i rest) :
    ∃ answer, Warrants i before rest request answer ∧ sentBy i rest <+: answer ∧
      ∀ c, t.get i = some c → c.state.receiving = true → sentBy i rest = answer := by
  obtain ⟨h, oom, -, hrun⟩ := run.beside hcap hsep
  obtain ⟨es, hd⟩ := hrun.delivers hcap
  exact hd.linearized hrun.replied hhistory hstill

/-- What the connection has done after the `GET a`. -/
def readsStored : List (Nat × Event) :=
  [(0, .lookedUp [97] (some (ringPointer 0))), (0, .freed (.memory ⟨.key 0, 0⟩)),
    (0, .sent [2, 1, 0, 0, 0]), (0, .sent [98]), (0, .released (ringPointer 0) .writesUnblocked)]

theorem table_linearizable_run : ∃ t before, TableServerRun oneKey 64 (fun _ _ => 0) t ∧
    t.history = before ++ (0, .executed ⟨.get, [97], []⟩) :: readsStored ∧
      Warrants 0 before readsStored ⟨.get, [97], []⟩ (valueResponse [98]) := by
  have hnew : entryHashMapOpen ⟨true, true⟩ = .ok (some emptyTable) := rfl
  have hrun : ∃ t ∈ properly oneKey putsAndGets (tableConnectionsOpen emptyTable 64 fun _ _ => 0),
      t.history.drop 11 = (0, .executed ⟨.get, [97], []⟩) :: readsStored ∧
        ∃ c ∈ t.get 0, c.state.receiving = true := by
    decide +kernel
  obtain ⟨t, ht, hdrop, c, hc, hs⟩ := hrun
  have run : TableServerRun oneKey 64 (fun _ _ => 0) t := properly_run (.opened hnew) ht
  have hhistory : t.history = t.history.take 11 ++ (0, .executed ⟨.get, [97], []⟩) :: readsStored := by
    rw [← hdrop, List.take_append_drop]
  have hstill : Still 0 readsStored := by
    intro x hx _ request bytes
    simp only [readsStored, List.mem_cons, List.not_mem_nil, or_false] at hx
    rcases hx with rfl | rfl | rfl | rfl | rfl <;> simp
  obtain ⟨answer, hanswer, -, hcomplete⟩ :=
    table_linearizable (by decide) oneKey_separated run hhistory hstill
  refine ⟨t, _, run, hhistory, ?_⟩
  rw [show valueResponse [98] = sentBy 0 readsStored from rfl, hcomplete c hc hs]
  exact hanswer

end CacheServer.RobinHood
