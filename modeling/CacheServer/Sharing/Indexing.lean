import CacheServer.Sharing.Uploads
import CacheServer.Sharing.Exclusive

/-!
# The index leads to complete entries

Nothing sets the active bit, so an eviction takes no key out of the index. In
runs whose allocations evict no entry that the index leads to, every item of the
index is a live entry that has been received whole, under its key.
-/

namespace CacheServer
open EntryHeader

/-! ### Sparing calls -/

/-- Among connections that fill the regions `F`: the size of a new entry does not wrap; the entry
evicts no region that is being filled and no entry that the index leads to; a GET is not retried on
an entry with the active bit. -/
structure Connection.Sparing (c : Connection) (w : World System) (F : Slot → Prop) : Prop where
  sizes : c.Allocates w → entryHeaderSize + c.keySize + c.valueSize < 2 ^ 32
  evicts : ∀ e, c.Evicts w e → ¬ F e ∧ ∀ item ∈ w.system.hashmap.items, item.2 ≠ e.pointer
  retries : c.state = .awaitingReadUnblock → ∀ p, c.entryHeader = some p → active w.memory p = 0

section
variable {c : Connection} {w : World System} {es : List Slot} {H : Pointer → Nat} {F : Slot → Prop}

theorem sparing_iff : c.Sparing w F ↔
    (c.Allocates w → entryHeaderSize + c.keySize + c.valueSize < 2 ^ 32 ∧
      ∀ e ∈ victims w.store (totalSize c.keySize c.valueSize),
        ¬ F e ∧ ∀ item ∈ w.system.hashmap.items, item.2 ≠ e.pointer) ∧
    (c.state = .awaitingReadUnblock → ∀ p ∈ c.entryHeader, active w.memory p = 0) := by
  constructor
  · intro h
    exact ⟨fun ha => ⟨h.sizes ha, fun e he => h.evicts e ⟨ha, he⟩⟩, h.retries⟩
  · rintro ⟨hallocates, hretries⟩
    exact ⟨fun ha => (hallocates ha).1, fun e he => (hallocates he.1).2 e he.2, hretries⟩

instance (c : Connection) (w : World System) (F : Slot → Prop) [DecidablePred F] :
    Decidable (c.Sparing w F) := decidable_of_iff _ sparing_iff.symm

theorem mem_items_of_get {p q : Pointer} (h : entryHashMapGet w.system.hashmap w.memory p = some q) :
    ∃ item ∈ w.system.hashmap.items, item.2 = q := by
  obtain ⟨item, hfound, rfl⟩ := Option.map_eq_some_iff.mp h
  exact ⟨item, List.mem_of_find?_eq_some hfound, rfl⟩

/-- What is looked up comes from the index. -/
theorem Connection.Sparing.target (h : c.Sparing w F) {p : Pointer} (hp : c.target w = some p) :
    ∃ item ∈ w.system.hashmap.items, item.2 = p := by
  unfold Connection.target at hp
  split at hp
  · cases hp
  · rename_i q hq
    split at hp
    · rename_i hactive
      exact absurd (h.retries hactive.1 q hq) hactive.2
    · exact mem_items_of_get hp

theorem Connection.Sparing.careful (h : c.Sparing w F) (hb : Base w es H F c.lock c.region)
    (hitems : ∀ item ∈ w.system.hashmap.items, ∃ e ∈ es, e.pointer = item.2 ∧ ¬ F e) :
    c.Careful w F := by
  have htarget : ∀ p, c.target w = some p → ∃ e ∈ es, e.pointer = p ∧ ¬ F e := by
    intro p hp
    obtain ⟨item, hitem, rfl⟩ := h.target hp
    exact hitems item hitem
  refine ⟨h.sizes, fun e he => (h.evicts e he).1, fun _ _ p hp => ?_, fun _ _ p hp => ?_⟩
  · rw [hb.ring.liveEntries_eq]
    exact htarget p hp
  · obtain ⟨e, he, rfl, -⟩ := htarget p hp
    exact hb.inactive e he

namespace ConnectionCall

def Sparing (call : ConnectionCall) (c : Connection) (w : World System) (F : Slot → Prop) : Prop :=
  ∀ r ∈ call.reached c w, r.1.Sparing r.2 F

instance (call : ConnectionCall) (c : Connection) (w : World System) (F : Slot → Prop)
    [DecidablePred F] : Decidable (call.Sparing c w F) :=
  inferInstanceAs (Decidable (∀ r ∈ call.reached c w, r.1.Sparing r.2 F))

theorem Sparing.careful {call : ConnectionCall} (h : call.Sparing c w F) (hc : c.Valid)
    (hp : c.Placed) (hb : Base w es H F c.lock c.region)
    (hitems : ∀ item ∈ w.system.hashmap.items, ∃ e ∈ es, e.pointer = item.2 ∧ ¬ F e) :
    call.Careful c w F := by
  intro r hreach
  refine (h r hreach).careful (reached_base hreach hc hp hb) ?_
  rw [reached_hashmap hc hp hreach]
  exact hitems

theorem Sparing.not_evicts {call : ConnectionCall} (h : call.Sparing c w F) (hc : c.Valid)
    (hp : c.Placed) {item : Nat × Pointer} (hitem : item ∈ w.system.hashmap.items) {e : Slot}
    (he : e.pointer = item.2) : ¬ call.Evicts c w e := by
  rintro ⟨⟨c', w'⟩, hreach, hevicts⟩
  rw [← reached_hashmap hc hp hreach] at hitem
  exact ((h _ hreach).evicts e hevicts).2 item hitem he.symm

end ConnectionCall

end

/-! ### What sparing steps keep -/

namespace Connections

def Sparing (s : Connections) : Action → Prop
  | .accept .. | .answer _ => True
  | .call i call => ∀ c ∈ s.get i, call.Sparing c s.world (s.FilledElsewhere i)

instance (s : Connections) : (a : Action) → Decidable (s.Sparing a)
  | .accept .. | .answer _ => inferInstanceAs (Decidable True)
  | .call i call =>
    inferInstanceAs (Decidable (∀ c ∈ s.get i, call.Sparing c s.world (s.FilledElsewhere i)))

/-- An item of the index leads to an entry that is live, received whole, and put into the index
under its key. -/
def Intact (s : Connections) (es : List Slot) (p : Pointer) : Prop :=
  ∃ e ∈ es, e.pointer = p ∧ (∀ i, s.region i ≠ some e) ∧ Complete s.world.memory s.history p

/-- No dangling index entries. -/
def NoDangling (s : Connections) : Prop :=
  ∀ item ∈ s.world.system.hashmap.items, s.Intact s.live item.2

structure Leads (s : Connections) (es : List Slot) : Prop where
  owned : s.Owned es
  uploads : ∀ i c, s.get i = some c → c.Uploads s.world.memory s.history i
  items : ∀ item ∈ s.world.system.hashmap.items, s.Intact es item.2

section
variable {s s' : Connections} {es : List Slot} {i : Nat} {o : Outcome System} {c : Connection}

theorem Leads.careful (h : s.Leads es) {a : Action} (sparing : s.Sparing a) : s.Careful a := by
  cases a with
  | accept | answer => trivial
  | call i call =>
    intro c hc
    obtain ⟨hvalid, hplaced⟩ := h.owned.connection i c hc
    have hbase := h.owned.base i
    rw [lock_eq hc, region_eq hc] at hbase
    refine (sparing c hc).careful hvalid hplaced hbase fun item hitem => ?_
    obtain ⟨e, he, hp, hnobody, -⟩ := h.items item hitem
    exact ⟨e, he, hp, fun ⟨j, _, _, hj⟩ => hnobody j hj⟩

/-- A call of the connection `i` leaves alone what another one fills. -/
theorem Owned.spares_filled {call : ConnectionCall} (h : s.Owned es) (hc : s.get i = some c)
    (careful : call.Careful c s.world (s.FilledElsewhere i)) {j : Nat} {e : Slot} (hji : j ≠ i)
    (hr : s.region j = some e) : ¬ call.Evicts c s.world e ∧ s.region i ≠ some e := by
  obtain ⟨hvalid, hplaced⟩ := h.connection i c hc
  have hbase := h.base i
  rw [lock_eq hc, region_eq hc] at hbase
  refine ⟨?_, fun hi => hji (h.distinct j i e hr hi)⟩
  exact call.not_evicts hvalid hplaced careful hbase ((h.base j).fills e hr).1
    (Or.inr (Or.inl ⟨j, lt_of_region h.fresh hr, hji, hr⟩))

theorem Leads.call_uploads {call : ConnectionCall} (h : s.Leads es) (hc : s.get i = some c)
    (careful : call.Careful c s.world (s.FilledElsewhere i)) (hrun : call.run c s.world = .ok o)
    (hspares : ∀ e ∈ es, ¬ call.Evicts c s.world e → s.region i ≠ some e → Spares e s.world o) :
    ∀ j c', (s.after i o).get j = some c' → c'.Uploads o.world.memory (extend s.history i o.events) j := by
  intro j c' hc' e hr
  obtain ⟨hvalid, hplaced⟩ := h.owned.connection i c hc
  by_cases hji : j = i
  · subst hji
    obtain ⟨hopen, rfl⟩ := after_get_self hc'
    rw [← o.region_eq hopen] at hr
    exact call.uploads hvalid hplaced careful hrun (h.uploads j c hc) hr
  · rw [after_get hji] at hc'
    have hregion : s.region j = some e := (region_eq hc').trans hr
    obtain ⟨hevicts, hne⟩ := h.owned.spares_filled hc careful hji hregion
    exact (h.uploads j c' hc' e hr).spared
      (hspares e ((h.owned.base j).fills e hregion).1 hevicts hne) hji

theorem Leads.call {call : ConnectionCall} (h : s.Leads es) (hc : s.get i = some c)
    (sparing : call.Sparing c s.world (s.FilledElsewhere i)) (hrun : call.run c s.world = .ok o) :
    ∃ es', (s.after i o).Leads es' := by
  obtain ⟨hvalid, hplaced⟩ := h.owned.connection i c hc
  have careful : call.Careful c s.world (s.FilledElsewhere i) := by
    have hall : ∀ c' ∈ s.get i, call.Sparing c' s.world (s.FilledElsewhere i) := by
      intro c' hc'
      cases hc.symm.trans hc'
      exact sparing
    have hcareful : s.Careful (.call i call) := h.careful hall
    exact hcareful c hc
  have hbase := h.owned.base i
  rw [lock_eq hc, region_eq hc] at hbase
  obtain ⟨es', howned, hkeeps⟩ := h.owned.call hc careful hrun
  refine ⟨es', howned, h.call_uploads hc careful hrun fun e he hevicts => (hkeeps e he hevicts).2, ?_⟩
  intro item hitem
  have hothers : ∀ e, s.region i = some e ∨ (∀ j, s.region j ≠ some e) →
      ∀ j, j ≠ i → (s.after i o).region j ≠ some e := by
    intro e he j hji hj
    rw [after_region hji] at hj
    rcases he with he | he
    · exact hji (h.owned.distinct j i e hj he)
    · exact he j hj
  rcases call.items hvalid hplaced careful hbase hrun (h.uploads i c hc) item hitem with
    hold | ⟨e, hp, hr, hdropped, hcomplete⟩
  · obtain ⟨e, he, hp, hnobody, hcomplete⟩ := h.items item hold
    obtain ⟨hmem, hspares⟩ := hkeeps e he (sparing.not_evicts hvalid hplaced hold hp)
    have hspared := hspares (hnobody i)
    refine ⟨e, hmem, hp, fun j hj => ?_, ?_⟩
    · by_cases hji : j = i
      · rw [hji, after_region_self] at hj
        exact hspared.region hj
      · exact hothers e (Or.inr hnobody) j hji hj
    · rw [← hp] at hcomplete ⊢
      exact hcomplete.spared hspared ((h.owned.base i).header he) i
  · have hfilled := hbase.fills e hr
    have hevicts := call.not_evicts hvalid hplaced careful hbase hfilled.1 (Or.inr (Or.inr hr))
    refine ⟨e, (hkeeps e hfilled.1 hevicts).1, hp, fun j hj => ?_, hcomplete⟩
    by_cases hji : j = i
    · rw [hji, after_region_self, hdropped] at hj
      cases hj
    · exact hothers e (Or.inl ((region_eq hc).trans hr)) j hji hj

theorem Leads.accept (h : s.Leads es) (hc : c.Valid ∧ c.Placed) (hl : c.lock = none)
    (hr : c.region = none) : (s.accept c).Leads es := by
  have hself : (s.accept c).get s.accepted = some c := if_pos rfl
  refine ⟨h.owned.accept hc hl hr, fun j c' hc' => ?_, fun item hitem => ?_⟩
  · by_cases hj : j = s.accepted
    · subst hj
      cases hself.symm.trans hc'
      intro e he
      cases hr.symm.trans he
    · rw [accept_get hj] at hc'
      exact h.uploads j c' hc'
  · obtain ⟨e, he, hp, hnobody, hcomplete⟩ := h.items item hitem
    refine ⟨e, he, hp, fun j hj => ?_, hcomplete⟩
    by_cases hj' : j = s.accepted
    · rw [hj', region_eq hself, hr] at hj
      cases hj
    · rw [region, accept_get hj'] at hj
      exact hnobody j hj

theorem Leads.step (h : s.Leads es) {a : Action} (sparing : s.Sparing a)
    (hstep : s.step a = .ok s') : ∃ es', s'.Leads es' := by
  cases a with
  | call i call =>
    obtain ⟨c, o, hc, hrun, rfl⟩ := step_call hstep
    exact h.call hc (sparing c hc) hrun
  | answer answers =>
    cases hstep
    exact ⟨es, h.owned.answer answers, h.uploads, h.items⟩
  | accept fileDescriptor header arguments =>
    cases hstep
    refine ⟨es, h.accept ⟨connectionInit_valid .., placed_of_state ?_⟩ rfl rfl⟩
    intro hs
    cases hs

/-- No key leads to what has been evicted. -/
theorem Leads.evicted (h : s.Leads es) {a : Action} (sparing : s.Sparing a) (hstep : s.step a = .ok s')
    {e : Slot} (hevicts : s.Evicts a e) :
    ∀ item ∈ s'.world.system.hashmap.items, item.2 ≠ e.pointer := by
  cases a with
  | accept | answer => exact hevicts.elim
  | call i call =>
    obtain ⟨c, o, hc, hrun, rfl⟩ := step_call hstep
    obtain ⟨c', hc', hevicts⟩ := hevicts
    cases hc.symm.trans hc'
    obtain ⟨hvalid, hplaced⟩ := h.owned.connection i c hc
    have hbase := h.owned.base i
    rw [lock_eq hc, region_eq hc] at hbase
    have hcareful : s.Careful (.call i call) := h.careful sparing
    intro item hitem hp
    rcases call.items hvalid hplaced (hcareful c hc) hbase hrun (h.uploads i c hc) item hitem with
      hold | ⟨x, -, hr, -⟩
    · exact (sparing c hc).not_evicts hvalid hplaced hold hp.symm hevicts
    · cases hr.symm.trans (hevicts.free hvalid).2

end

end Connections

/-! ### Runs -/

abbrev SparingRun := GuardedRun Connections.Sparing

section
variable {hash : List UInt8 → Nat} {capacityBytes : Nat} {memory : Memory} {s : Connections}

theorem SparingRun.leads (hcap : capacityBytes < 2 ^ 64) (run : SparingRun hash capacityBytes memory s) :
    ∃ es, s.Leads es := by
  induction run with
  | opened =>
    exact ⟨[], .opened hcap, fun i c hc => (by cases hc), fun item hitem => (by cases hitem)⟩
  | stepped a run sparing step ih =>
    obtain ⟨es, hleads⟩ := ih
    exact hleads.step sparing step

theorem no_dangling (hcap : capacityBytes < 2 ^ 64) (run : SparingRun hash capacityBytes memory s) :
    s.NoDangling ∧ ∀ a s' e, s.Sparing a → s.step a = .ok s' → s.Evicts a e →
      ∀ item ∈ s'.world.system.hashmap.items, item.2 ≠ e.pointer := by
  obtain ⟨es, hleads⟩ := run.leads hcap
  refine ⟨fun item hitem => ?_, fun a s' e sparing hstep => hleads.evicted sparing hstep⟩
  rw [hleads.owned.live_eq]
  exact hleads.items item hitem

end

/-- `PUT a = b`, `DELETE a` and the header of a `PUT`. -/
def deletesA : List Action :=
  [.accept 5 (fun _ => 0) fun _ => 0, receiving 0 [1, 0, 1, 2], receiving 0 [1, 0, 1, 0, 0, 0],
    receiving 0 [97, 98], sending 0 1, receiving 0 [1, 0, 1, 3], receiving 0 [1, 0], receiving 0 [97],
    sending 0 1, receiving 0 [1, 0, 1, 2]]

/-- The arguments of a `PUT` that needs the space of `a`. -/
def needsA : ConnectionCall := .proc ⟨[1, 0, 13, 0, 0, 0], false, 0, false⟩

theorem no_dangling_shared :
    (∃ s, SparingRun ByteArea.decodeLE 64 (fun _ _ => 0) s ∧
      s.world.system.hashmap.items = [(97, ringPointer 0)] ∧ s.NoDangling) ∧
    ∃ s s', SparingRun ByteArea.decodeLE 64 (fun _ _ => 0) s ∧ s.step (.call 0 needsA) = .ok s' ∧
      s.Evicts (.call 0 needsA) ⟨0, 1, 1⟩ ∧
      ∀ item ∈ s'.world.system.hashmap.items, item.2 ≠ ringPointer 0 := by
  constructor
  · have hrun : ∃ s ∈ guardedly Connections.Sparing sharesRing smallConnections,
        s.world.system.hashmap.items = [(97, ringPointer 0)] := by
      decide +kernel
    obtain ⟨s, hs, hitems⟩ := hrun
    have run : SparingRun ByteArea.decodeLE 64 (fun _ _ => 0) s := guardedly_run .opened hs
    exact ⟨s, run, hitems, (no_dangling (by decide) run).1⟩
  · have hrun : ∃ s ∈ guardedly Connections.Sparing deletesA smallConnections,
        s.Sparing (.call 0 needsA) ∧ (s.step (.call 0 needsA)).Gives (fun _ => True) ∧
          ∃ c ∈ s.get 0, ∃ r ∈ needsA.reached c s.world, r.1.Allocates r.2 ∧
            (⟨0, 1, 1⟩ : Slot) ∈ victims r.2.store (totalSize r.1.keySize r.1.valueSize) := by
      decide +kernel
    obtain ⟨s, hs, sparing, ⟨s', hs', -⟩, hevicts⟩ := hrun
    have run : SparingRun ByteArea.decodeLE 64 (fun _ _ => 0) s := guardedly_run .opened hs
    exact ⟨s, s', run, hs', hevicts,
      (no_dangling (by decide) run).2 _ s' _ sparing hs' hevicts⟩

/-- The header and arguments of a `PUT` of 14 bytes, after a `PUT a` and a `PUT b`. -/
def evictsStored : List Environment :=
  storesA ++ storesB ++ [receives 0 [1, 0, 1, 2], receives 0 [1, 0, 13, 0, 0, 0]]

/- `a` and `b` make room for it; the index still leads to where `b` was. -/
theorem evicted_in_index : ∃ s, Server.Reachable ByteArea.decodeLE 64 (fun _ _ => 0) s ∧
    ∀ history, ¬ (s.view history).NoDangling := by
  have hrun : (run 1 evictsStored smallServer).Gives fun s =>
      (98, ringPointer 18) ∈ s.world.system.hashmap.items ∧
        ∀ e ∈ (s.view []).live, e.pointer ≠ ringPointer 18 := by
    decide +kernel
  obtain ⟨s, hs, hitem, hnone⟩ := hrun
  refine ⟨s, run_reachable .opened hs, fun history h => ?_⟩
  obtain ⟨e, he, hp, -⟩ := h _ hitem
  exact hnone e he hp

end CacheServer
