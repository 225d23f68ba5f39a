import CacheServer.Sharing.Serving
import CacheServer.Sharing.Interleaving

/-!
# Every GET is answered with what was stored

In runs whose allocations evict nothing that is still referred to, and whose
keys are not taken for one another, the ledger is what clients see: a value or
NOT_FOUND as it was at the lookup.
-/

namespace CacheServer
open EntryHeader

/-! ### Exact calls -/

/-- Among connections that fill the regions `F` and wait for the entries `A`: the size of a new entry
does not wrap; the entry evicts no region that is being filled, no entry that the index leads to and
none that is waited for; no other key is taken for the one that is looked up. -/
structure Connection.Exact (c : Connection) (w : World System) (F : Slot → Prop) (A : Pointer → Prop) :
    Prop where
  sizes : c.Allocates w → entryHeaderSize + c.keySize + c.valueSize < 2 ^ 32
  evicts : ∀ e, c.Evicts w e →
    ¬ F e ∧ ¬ A e.pointer ∧ ∀ item ∈ w.system.hashmap.items, item.2 ≠ e.pointer
  looksUp : c.LooksUp → ∀ p, c.entryHeader = some p → Distinguished w.system.hashmap w.memory p

/-- The connection waits for the lock of an entry that it is to read. -/
def Connection.Awaits (c : Connection) (p : Pointer) : Prop :=
  c.state = .awaitingReadUnblock ∧ c.entryHeader = some p

instance (c : Connection) (p : Pointer) : Decidable (c.Awaits p) := inferInstanceAs (Decidable (_ ∧ _))

section
variable {c c' : Connection} {w w' : World System} {F : Slot → Prop} {A : Pointer → Prop}
  {o : Outcome System} {es : List Slot} {H : Pointer → Nat} {p : Pointer}

theorem exact_iff : c.Exact w F A ↔
    (c.Allocates w → entryHeaderSize + c.keySize + c.valueSize < 2 ^ 32 ∧
      ∀ e ∈ victims w.store (totalSize c.keySize c.valueSize),
        ¬ F e ∧ ¬ A e.pointer ∧ ∀ item ∈ w.system.hashmap.items, item.2 ≠ e.pointer) ∧
    (c.LooksUp → ∀ p ∈ c.entryHeader, Distinguished w.system.hashmap w.memory p) := by
  constructor
  · intro h
    exact ⟨fun ha => ⟨h.sizes ha, fun e he => h.evicts e ⟨ha, he⟩⟩, h.looksUp⟩
  · rintro ⟨hallocates, hlooks⟩
    exact ⟨fun ha => (hallocates ha).1, fun e he => (hallocates he.1).2 e he.2, hlooks⟩

instance (c : Connection) (w : World System) (F : Slot → Prop) (A : Pointer → Prop) [DecidablePred F]
    [DecidablePred A] : Decidable (c.Exact w F A) := decidable_of_iff _ exact_iff.symm

namespace ConnectionCall

variable {call : ConnectionCall}

def Exact (call : ConnectionCall) (c : Connection) (w : World System) (F : Slot → Prop)
    (A : Pointer → Prop) : Prop := ∀ r ∈ call.reached c w, r.1.Exact r.2 F A

instance (call : ConnectionCall) (c : Connection) (w : World System) (F : Slot → Prop)
    (A : Pointer → Prop) [DecidablePred F] [DecidablePred A] : Decidable (call.Exact c w F A) :=
  inferInstanceAs (Decidable (∀ r ∈ call.reached c w, r.1.Exact r.2 F A))

/- Only a retry finds a connection that waits. -/
theorem reached_awaiting (h : call.reached c w = some (c', w'))
    (state : c'.state = .awaitingReadUnblock) : c' = c ∧ w' = w := by
  cases call with
  | unblockRead | unblockWrite =>
    cases h
    exact ⟨rfl, rfl⟩
  | proc socket =>
    obtain ⟨events, ht⟩ := reached_proc h
    have hawaits : c'.state.awaits = none := connectionTransfer_awaits ht
    rw [state] at hawaits
    cases hawaits

theorem Exact.sparing (h : call.Exact c w F A)
    (hactive : ∀ p, c.Awaits p → active w.memory p = 0) : call.Sparing c w F := by
  rintro ⟨c', w'⟩ hreach
  obtain ⟨hsizes, hevicts, -⟩ := h _ hreach
  refine ⟨hsizes, fun e he => ⟨(hevicts e he).1, (hevicts e he).2.2⟩, fun state p hp => ?_⟩
  obtain ⟨rfl, rfl⟩ := reached_awaiting hreach state
  exact hactive p ⟨state, hp⟩

theorem Exact.not_awaited (h : call.Exact c w F A) {e : Slot} (hA : A e.pointer) :
    ¬ call.Evicts c w e := by
  rintro ⟨r, hreach, hevicts⟩
  exact ((h r hreach).evicts e hevicts).2.1 hA

end ConnectionCall

/-! ### Waiting -/

/- What is waited for was found in the index. -/
theorem attemptMemoryRead_awaited (h : (attemptMemoryRead c w).connection.Awaits p) :
    c.entryHeader = some p ∧ (attemptMemoryRead c w).world.system.hashmap = w.system.hashmap := by
  unfold attemptMemoryRead at h ⊢
  split at h
  · cases h.1
  · split at h
    · exact ⟨h.2, rfl⟩
    · cases h.1

theorem connectionTransfer_awaited {socket : Socket}
    (h : connectionTransfer serverServices socket c w = .ok o) : ¬ o.connection.Awaits p := by
  rintro ⟨state, -⟩
  have hawaits : o.connection.state.awaits = o.result.blocks := connectionTransfer_awaits h
  have hblocks : o.result.blocks = none := by
    rcases connectionTransfer_result h with hr | hr | hr <;> rw [hr] <;> rfl
  rw [state, hblocks] at hawaits
  cases hawaits

theorem finishRequest_awaited (hs : c.state ≠ .awaitingReadUnblock) (w : World System) :
    ¬ (finishRequest c w).connection.Awaits p := by
  unfold finishRequest
  split
  · rintro ⟨state, -⟩
    cases state
  · exact fun h => hs h.1

theorem eventReceivedBody_awaited (he : eventReceivedBody serverServices c w = .ok o)
    (h : o.connection.Awaits p) : ∃ item ∈ o.world.system.hashmap.items, item.2 = p := by
  unfold eventReceivedBody at he
  split at he
  · simp only at he
    split at he
    · cases he
    · rename_i hfree
      cases he
      obtain ⟨hfound, hhashmap⟩ := attemptMemoryRead_awaited h
      obtain ⟨-, -, hsame, -⟩ := freeKey_frame hfree
      have hitem := mem_items_of_get hfound
      rw [← hsame, ← hhashmap] at hitem
      exact hitem
  · simp only at he
    split at he <;> cases he
    cases h.1
  · simp only at he
    split at he <;> cases he <;> cases h.1
  · cases he
  · cases he
  · cases he

theorem connectionEvent_awaited (hc : c.Valid) (he : connectionEvent serverServices c w = .ok o)
    (h : o.connection.Awaits p) : ∃ item ∈ o.world.system.hashmap.items, item.2 = p := by
  obtain ⟨hphase, -⟩ := hc
  cases hphase with
  | receivingHeader state =>
    simp only [connectionEvent, state] at he
    cases he
    exact absurd (Or.inl h.1) (eventReceivedHeader_unasked c w).other
  | receivingArguments state =>
    simp only [connectionEvent, state] at he
    exact absurd (Or.inl h.1) (eventReceivedArguments_unasked he).other
  | receivingBody state =>
    simp only [connectionEvent, state] at he
    exact eventReceivedBody_awaited he h
  | awaitingWriteUnblock state | awaitingReadUnblock state =>
    simp only [connectionEvent, state] at he
    cases he
  | sendingHeader state buffer type final =>
    simp only [connectionEvent, state] at he
    rw [eventSentHeader_final type final] at he
    cases he
    refine absurd h (finishRequest_awaited ?_ w)
    split <;> simp [state]
  | sendingValue state buffer type window entry =>
    simp only [connectionEvent, state] at he
    rw [eventSentHeader_value type entry] at he
    cases he
    cases h.1
  | sendingBody state type entry =>
    simp only [connectionEvent, state] at he
    rw [eventSentBody_value type entry] at he
    cases he
    refine absurd h (finishRequest_awaited ?_ _)
    simp [state]

theorem ConnectionCall.awaited {call : ConnectionCall} (hc : c.Valid)
    (hactive : ∀ p, c.Awaits p → active w.memory p = 0) (hrun : call.run c w = .ok o)
    (h : o.connection.Awaits p) : ∃ item ∈ o.world.system.hashmap.items, item.2 = p := by
  have hreturns := call.returns hrun
  cases hreturns with
  | transferred socket transfer => exact absurd h (connectionTransfer_awaited transfer)
  | @completed o₁ o₂ socket transfer success complete event =>
    have hopen : o₁.result ≠ .disconnect := by rw [success]; decide
    have hlast : o₂.connection.Awaits p := h
    have hitem := connectionEvent_awaited (connectionTransfer_valid hc transfer hopen) event hlast
    exact hitem
  | retriedRead retry =>
    unfold connectionUnblockRead at retry
    split at retry
    · rename_i state
      split at retry
      · cases retry
      · rename_i q entry
        rw [if_pos (hactive q ⟨state, entry⟩)] at retry
        cases retry
        obtain ⟨hfound, hhashmap⟩ := attemptMemoryRead_awaited h
        have hitem := mem_items_of_get hfound
        rw [← hhashmap] at hitem
        exact hitem
    · cases retry
  | retriedWrite retry =>
    unfold connectionUnblockWrite at retry
    split at retry
    · exact absurd (Or.inl h.1) (attemptMemoryWrite_unasked retry).other
    · cases retry

/- A value is sent from an entry that its connection has locked. -/
theorem Connection.Valid.lock_of_sends (hc : c.Valid) (h : c.SendsValue) (hp : c.entryHeader = some p) :
    c.lock = some p := by
  obtain ⟨hphase, -⟩ := hc
  have hstate : c.state = .sendingBody ∨ c.state = .sendingHeader := h.imp_right And.left
  cases hphase with
  | sendingValue state buffer type window entry unallocated locked => exact lock_eq_some locked hp
  | sendingBody state type entry unallocated locked => exact lock_eq_some locked hp
  | sendingHeader state buffer type final =>
    rcases h with hs | ⟨-, ht⟩
    · cases state.symm.trans hs
    · exact absurd (Option.some.inj (type.symm.trans ht)) final
  | receivingHeader state | receivingArguments state | receivingBody state
  | awaitingWriteUnblock state | awaitingReadUnblock state =>
    rcases hstate with hs | hs <;> cases state.symm.trans hs

end

/-! ### What exact steps keep -/

namespace Connections

/-- Some connection waits for the entry. -/
def Awaited (s : Connections) (p : Pointer) : Prop := ∃ i < s.accepted, ∃ c ∈ s.get i, c.Awaits p

instance (s : Connections) : DecidablePred s.Awaited := fun p =>
  inferInstanceAs (Decidable (∃ i < s.accepted, ∃ c ∈ s.get i, c.Awaits p))

def Exact (s : Connections) : Action → Prop
  | .accept .. | .answer _ => True
  | .call i call => ∀ c ∈ s.get i, call.Exact c s.world (s.FilledElsewhere i) s.Awaited

instance (s : Connections) : (a : Action) → Decidable (s.Exact a)
  | .accept .. | .answer _ => inferInstanceAs (Decidable True)
  | .call i call =>
    inferInstanceAs (Decidable (∀ c ∈ s.get i, call.Exact c s.world (s.FilledElsewhere i) s.Awaited))

/-- The GET that the connection `i` is answering, or has answered last. -/
def reading (s : Connections) (i : Nat) : Option Reading := (ledger s.history).reading i

/-- Clients see what has been stored: requests are what was received, the ledger has the values of
the last PUTs, and what is sent in answer to a GET is, or begins, the answer that the ledger holds. -/
structure Delivered (s : Connections) : Prop where
  wire : FromWire s.history
  stored : ∀ k v, (ledger s.history).stored k = some v ↔ LastStored s.history k v
  sent : ∀ i r, s.reading i = some r → r.sent <+: r.response
  answering : ∀ i c, s.get i = some c → c.Answering → ∃ r, s.reading i = some r

/-- The call comes to the end of a value that its connection is sending. -/
def EndsValue (s : Connections) (i : Nat) (call : ConnectionCall) : Prop :=
  ∃ c, s.get i = some c ∧ c.state = .sendingBody ∧ call.reached c s.world ≠ none

structure Delivers (s : Connections) (es : List Slot) : Prop where
  leads : s.Leads es
  keys : s.KeysOwned
  wire : FromWire s.history
  published : Published (ledger s.history).stored s.world.system.hashmap s.world.memory
  fresh : ∀ i, s.accepted ≤ i → s.reading i = none
  sent : ∀ i r, s.reading i = some r → r.sent <+: r.response
  serving : ∀ i c, s.get i = some c → Serving c s.world.memory (s.reading i)
  awaited : ∀ i c, s.get i = some c → ∀ p, c.Awaits p →
    ∃ e ∈ es, e.pointer = p ∧ ∀ j, s.region j ≠ some e

section
variable {s s' : Connections} {es es' : List Slot} {i j : Nat} {c c' : Connection} {o : Outcome System}
  {p : Pointer}

theorem lt_of_get (hfresh : ∀ i, s.accepted ≤ i → s.get i = none) (hc : s.get i = some c) :
    i < s.accepted := by
  by_contra hlt
  cases (hfresh i (by omega)).symm.trans hc

theorem Delivers.delivered (h : s.Delivers es) : s.Delivered := by
  refine ⟨h.wire, fun k v => ledger_stored_iff, h.sent, fun i c hc hanswering => ?_⟩
  have hserving := h.serving i c hc
  cases hr : s.reading i with
  | none =>
    rw [hr] at hserving
    exact absurd hanswering hserving.not_answering
  | some r => exact ⟨r, rfl⟩

theorem Delivers.value_sent {call : ConnectionCall} (h : s.Delivers es) (hends : s.EndsValue i call)
    (hstep : s.step (.call i call) = .ok s') : ∃ r v, s'.reading i = some r ∧ r.value = some v ∧
      v.length < 2 ^ 32 ∧ r.sent = valueResponse v := by
  obtain ⟨c, o, hc, hrun, rfl⟩ := step_call hstep
  obtain ⟨c', hc', state, hreach⟩ := hends
  cases hc.symm.trans hc'
  obtain ⟨⟨c', w'⟩, hsome⟩ := Option.ne_none_iff_exists'.mp hreach
  exact call.value_sent (h.leads.owned.connection i c hc).1 (h.serving i c hc) state hsome hrun

theorem Delivers.inactive (h : s.Delivers es) (hc : s.get i = some c) :
    ∀ p, c.Awaits p → active s.world.memory p = 0 := by
  intro p hp
  obtain ⟨e, he, rfl, -⟩ := h.awaited i c hc p hp
  exact (h.leads.owned.base 0).inactive e he

theorem Delivers.sparing (h : s.Delivers es) {a : Action} (exact_ : s.Exact a) : s.Sparing a := by
  cases a with
  | accept | answer => trivial
  | call i call => exact fun c hc => (exact_ c hc).sparing (h.inactive hc)

/-- What a connection reads is live, is not being filled, and is not evicted by another one. -/
theorem Delivers.reads {call : ConnectionCall} (h : s.Delivers es) (hc : s.get i = some c)
    (exact_ : call.Exact c s.world (s.FilledElsewhere i) s.Awaited) (careful : s.Careful (.call i call))
    (hc' : s.get j = some c') (hp : c'.Reads p) :
    ∃ e ∈ es, e.pointer = p ∧ (∀ k, s.region k ≠ some e) ∧ ¬ call.Evicts c s.world e := by
  obtain ⟨entry, state | hsends⟩ := hp
  · obtain ⟨e, he, rfl, hnobody⟩ := h.awaited j c' hc' p ⟨state, entry⟩
    refine ⟨e, he, rfl, hnobody, exact_.not_awaited ?_⟩
    exact ⟨j, lt_of_get h.leads.owned.fresh hc', c', hc', state, entry⟩
  · have hlock : s.lock j = some p := by
      rw [lock_eq hc']
      exact (h.leads.owned.connection j c' hc').1.lock_of_sends hsends entry
    obtain ⟨e, he, rfl, hnobody⟩ := h.leads.owned.held hlock
    refine ⟨e, he, rfl, hnobody, fun hevicts => ?_⟩
    have hpos := (holders_pos h.leads.owned.fresh).mpr ⟨j, hlock⟩
    exact h.leads.owned.not_evicts careful he (Or.inl hpos) ⟨c, hc, hevicts⟩

/-- What an exact call starts from. -/
theorem Delivers.items {call : ConnectionCall} (h : s.Delivers es) (hc : s.get i = some c)
    (sparing : call.Sparing c s.world (s.FilledElsewhere i)) :
    ∀ item ∈ s.world.system.hashmap.items,
      ∃ e ∈ es, e.pointer = item.2 ∧ ¬ call.Evicts c s.world e ∧ c.region ≠ some e := by
  intro item hitem
  obtain ⟨hvalid, hplaced⟩ := h.leads.owned.connection i c hc
  obtain ⟨e, he, hp, hnobody, -⟩ := h.leads.items item hitem
  refine ⟨e, he, hp, sparing.not_evicts hvalid hplaced hitem hp, ?_⟩
  rw [← region_eq hc]
  exact hnobody i

theorem Delivers.call_published {call : ConnectionCall} (h : s.Delivers es) (hc : s.get i = some c)
    (exact_ : call.Exact c s.world (s.FilledElsewhere i) s.Awaited) (hrun : call.run c s.world = .ok o) :
    Published (ledger (extend s.history i o.events)).stored o.world.system.hashmap o.world.memory := by
  have sparing := exact_.sparing (h.inactive hc)
  obtain ⟨hvalid, hplaced⟩ := h.leads.owned.connection i c hc
  have hbase := h.leads.owned.base i
  rw [lock_eq hc, region_eq hc] at hbase
  have careful := sparing.careful hvalid hplaced hbase fun item hitem => ?_
  · exact call.published hvalid hplaced careful hbase (h.keys.keyed i c hc)
      (fun r hreach hs p hp => (exact_ r hreach).looksUp (Or.inl hs) p hp) (h.items hc sparing)
      h.published hrun
  · obtain ⟨e, he, hp, hnobody, -⟩ := h.leads.items item hitem
    exact ⟨e, he, hp, fun ⟨j, _, _, hj⟩ => hnobody j hj⟩

theorem Delivers.call_serving {call : ConnectionCall} (h : s.Delivers es) (hc : s.get i = some c)
    (exact_ : call.Exact c s.world (s.FilledElsewhere i) s.Awaited) (hrun : call.run c s.world = .ok o) :
    Serving o.connection o.world.memory ((s.after i o).reading i) := by
  have sparing := exact_.sparing (h.inactive hc)
  obtain ⟨hvalid, hplaced⟩ := h.leads.owned.connection i c hc
  have hbase := h.leads.owned.base i
  rw [lock_eq hc, region_eq hc] at hbase
  refine call.serving hvalid hplaced hbase (h.keys.keyed i c hc)
    (fun r hreach hl p hp => (exact_ r hreach).looksUp hl p hp)
    (fun hs p hp => h.inactive hc p ⟨hs, hp⟩) (fun item hitem => ?_) h.published (h.serving i c hc) hrun
  obtain ⟨e, he, hp, -, hregion⟩ := h.items hc sparing item hitem
  exact ⟨e, he, hp, hregion⟩

theorem after_reading (hji : j ≠ i) : (s.after i o).reading j = s.reading j :=
  reading_other hji o.events

theorem Delivers.call_others {call : ConnectionCall} (h : s.Delivers es) (hc : s.get i = some c)
    (exact_ : call.Exact c s.world (s.FilledElsewhere i) s.Awaited) (careful : s.Careful (.call i call))
    (hkeeps : ∀ e ∈ es, ¬ call.Evicts c s.world e →
      e ∈ es' ∧ (s.region i ≠ some e → Spares e s.world o))
    (hc' : s.get j = some c') :
    Serving c' o.world.memory (s.reading j) ∧ ∀ p, c'.Awaits p →
      ∃ e ∈ es', e.pointer = p ∧ ∀ k, (s.after i o).region k ≠ some e := by
  constructor
  · refine (h.serving j c' hc').congr fun p hp => ?_
    obtain ⟨e, he, rfl, hnobody, hevicts⟩ := h.reads hc exact_ careful hc' hp
    exact ((hkeeps e he hevicts).2 (hnobody i)).same.unchanged ((h.leads.owned.base i).header he)
  · intro p hp
    obtain ⟨e, he, rfl, hnobody, hevicts⟩ := h.reads hc exact_ careful hc' ⟨hp.2, Or.inl hp.1⟩
    obtain ⟨hmem, hspares⟩ := hkeeps e he hevicts
    refine ⟨e, hmem, rfl, fun k hk => ?_⟩
    by_cases hki : k = i
    · rw [hki, after_region_self] at hk
      exact (hspares (hnobody i)).region hk
    · rw [after_region hki] at hk
      exact hnobody k hk

theorem Delivers.call {call : ConnectionCall} (h : s.Delivers es) (hc : s.get i = some c)
    (exact_ : call.Exact c s.world (s.FilledElsewhere i) s.Awaited) (hrun : call.run c s.world = .ok o) :
    ∃ es', (s.after i o).Delivers es' := by
  have sparing := exact_.sparing (h.inactive hc)
  obtain ⟨hvalid, hplaced⟩ := h.leads.owned.connection i c hc
  have hsparing : s.Sparing (.call i call) := by
    intro c' hc'
    cases hc.symm.trans hc'
    exact sparing
  have hcareful : s.Careful (.call i call) := h.leads.careful hsparing
  have careful := hcareful c hc
  obtain ⟨es', hleads⟩ := h.leads.call hc sparing hrun
  obtain ⟨es₁, howned, hkeeps⟩ := h.leads.owned.call hc careful hrun
  obtain rfl : es₁ = es' := howned.live_eq.symm.trans hleads.owned.live_eq
  have hserving := h.call_serving hc exact_ hrun
  have hi := lt_of_get h.leads.owned.fresh hc
  refine ⟨es₁, hleads, h.keys.call h.leads.owned hc careful hrun, ?_,
    h.call_published hc exact_ hrun, fun j hj => ?_, fun j r hr => ?_, fun j c' hc' => ?_,
    fun j c' hc' p hp => ?_⟩
  · exact call.fromWire hvalid hplaced (h.keys.keyed i c hc) (h.leads.uploads i c hc) h.wire hrun
  · have hji : j ≠ i := by
      rintro rfl
      exact absurd hj (by show ¬ s.accepted ≤ j; omega)
    rw [after_reading hji]
    exact h.fresh j hj
  · by_cases hji : j = i
    · subst hji
      rw [hr] at hserving
      exact hserving.prefix
    · rw [after_reading hji] at hr
      exact h.sent j r hr
  · by_cases hji : j = i
    · subst hji
      rw [(after_get_self hc').2]
      exact hserving
    · rw [after_get hji] at hc'
      rw [after_reading hji]
      exact (h.call_others hc exact_ hcareful hkeeps hc').1
  · by_cases hji : j = i
    · subst hji
      rw [(after_get_self hc').2] at hp
      obtain ⟨item, hitem, rfl⟩ := call.awaited hvalid (h.inactive hc) hrun hp
      obtain ⟨e, he, hpointer, hnobody, -⟩ := hleads.items item hitem
      exact ⟨e, he, hpointer, hnobody⟩
    · rw [after_get hji] at hc'
      exact (h.call_others hc exact_ hcareful hkeeps hc').2 p hp

theorem Delivers.accept (h : s.Delivers es) (hc : c.Valid ∧ c.Placed)
    (state : c.state = .receivingHeader) (hl : c.lock = none) : (s.accept c).Delivers es := by
  have hself : (s.accept c).get s.accepted = some c := if_pos rfl
  have hregion : c.region = none := region_eq_none_of_state (by rw [state]; decide)
  have hreceiving : c.state.receiving = true := by
    rw [state]
    rfl
  have hother : ∀ j c', (s.accept c).get j = some c' → j ≠ s.accepted → s.get j = some c' :=
    fun j c' hc' hj => (accept_get hj).symm.trans hc'
  refine ⟨h.leads.accept hc hl hregion, h.keys.accept (keyBlock_eq_none (by rw [state]; decide)),
    h.wire, h.published, fun j hj => h.fresh j (Nat.le_of_succ_le hj), h.sent, fun j c' hc' => ?_,
    fun j c' hc' p hp => ?_⟩
  · by_cases hj : j = s.accepted
    · subst hj
      cases hself.symm.trans hc'
      rw [show (s.accept c).reading s.accepted = none from h.fresh _ le_rfl]
      exact .idle (not_answering_of_receiving hreceiving)
    · exact h.serving j c' (hother j c' hc' hj)
  · by_cases hj : j = s.accepted
    · subst hj
      cases hself.symm.trans hc'
      cases state.symm.trans hp.1
    · obtain ⟨e, he, hpointer, hnobody⟩ := h.awaited j c' (hother j c' hc' hj) p hp
      refine ⟨e, he, hpointer, fun k hk => ?_⟩
      by_cases hk' : k = s.accepted
      · rw [hk', region_eq hself, hregion] at hk
        cases hk
      · rw [region, accept_get hk'] at hk
        exact hnobody k hk

theorem KeysOwned.answer (h : s.KeysOwned) (answers : Answers) :
    KeysOwned { s with world := setAnswers s.world answers } := by
  refine ⟨fun i c hc n hn => ?_, h.distinct⟩
  obtain ⟨malloced, entry, size, inside, received⟩ := h.keyed i c hc n hn
  exact ⟨malloced, entry, size, inside, received⟩

theorem Delivers.step (h : s.Delivers es) {a : Action} (exact_ : s.Exact a) (hstep : s.step a = .ok s') :
    ∃ es', s'.Delivers es' := by
  cases a with
  | call i call =>
    obtain ⟨c, o, hc, hrun, rfl⟩ := step_call hstep
    exact h.call hc (exact_ c hc) hrun
  | answer answers =>
    cases hstep
    exact ⟨es, ⟨h.leads.owned.answer answers, h.leads.uploads, h.leads.items⟩, h.keys.answer answers,
      h.wire, h.published, h.fresh, h.sent, h.serving, h.awaited⟩
  | accept fileDescriptor header arguments =>
    cases hstep
    refine ⟨es, h.accept ⟨connectionInit_valid .., placed_of_state ?_⟩ rfl rfl⟩
    intro hs
    cases hs

end

end Connections

/-! ### Runs -/

abbrev ExactRun := GuardedRun Connections.Exact

section
variable {hash : List UInt8 → Nat} {capacityBytes : Nat} {memory : Memory} {s : Connections}

theorem Connections.Delivers.opened (hcap : capacityBytes < 2 ^ 64) :
    (connectionsOpen hash capacityBytes memory).Delivers [] where
  leads := ⟨.opened hcap, fun i c hc => (by cases hc), fun item hitem => (by cases hitem)⟩
  keys := ⟨fun i c hc => (by cases hc), fun i j c c' n hc => (by cases hc)⟩
  wire := .nil
  published := ⟨fun item hitem => (by cases hitem), fun item hitem => (by cases hitem),
    fun k v hk => (by cases hk), List.nodup_nil⟩
  fresh i _ := rfl
  sent i r hr := by cases hr
  serving i c hc := by cases hc
  awaited i c hc := by cases hc

theorem ExactRun.delivers (hcap : capacityBytes < 2 ^ 64) (run : ExactRun hash capacityBytes memory s) :
    ∃ es, s.Delivers es := by
  induction run with
  | opened => exact ⟨[], .opened hcap⟩
  | stepped a run exact_ step ih =>
    obtain ⟨es, hdelivers⟩ := ih
    exact hdelivers.step exact_ step

/-- Every GET is answered with the value of the last PUT of its key, all of it, or with NOT_FOUND
where there is none. -/
theorem gets_answered (hcap : capacityBytes < 2 ^ 64) (run : ExactRun hash capacityBytes memory s) :
    s.Delivered ∧ ∀ i call s', s.EndsValue i call → s.step (.call i call) = .ok s' →
      ∃ r v, s'.reading i = some r ∧ r.value = some v ∧ v.length < 2 ^ 32 ∧ r.sent = valueResponse v := by
  obtain ⟨es, hdelivers⟩ := run.delivers hcap
  exact ⟨hdelivers.delivered, fun i call s' hends hstep => hdelivers.value_sent hends hstep⟩

end

/-- After `sharesRing`, the answer to the `GET a` but for its last byte. -/
def answersGet : List Action := sharesRing ++ [sending 0 5]

def lastByte : ConnectionCall := .proc ⟨[], false, 1, false⟩

theorem gets_answered_shared : ∃ s s', ExactRun ByteArea.decodeLE 64 (fun _ _ => 0) s ∧ s.Delivered ∧
    s.step (.call 0 lastByte) = .ok s' ∧
    s'.reading 0 = some ⟨[97], some [98], valueResponse [98]⟩ ∧
    ∃ r v, s'.reading 0 = some r ∧ r.value = some v ∧ v.length < 2 ^ 32 ∧ r.sent = valueResponse v := by
  have hrun : ∃ s ∈ guardedly Connections.Exact answersGet smallConnections,
      (∃ c ∈ s.get 0, c.state = .sendingBody ∧ lastByte.reached c s.world ≠ none) ∧
        (s.step (.call 0 lastByte)).Gives fun s' =>
          s'.reading 0 = some ⟨[97], some [98], valueResponse [98]⟩ := by
    decide +kernel
  obtain ⟨s, hs, hends, s', hs', hreading⟩ := hrun
  have run : ExactRun ByteArea.decodeLE 64 (fun _ _ => 0) s := guardedly_run .opened hs
  obtain ⟨hdelivered, hanswer⟩ := gets_answered (by decide) run
  exact ⟨s, s', run, hdelivered, hs', hreading, hanswer 0 lastByte s' hends hs'⟩

/-- `PUT d` with a value of 13 bytes, in the place of `a` and `b`, then `GET b` and its answer. -/
def answersGone : List Environment :=
  evictsStored ++ [receives 0 [100, 1, 2, 3, 4, 5, 6, 7, 8, 9, 2, 0, 0, 0], sends 0 1,
    receives 0 [1, 0, 1, 1], receives 0 [1, 0], receives 0 [98], sends 0 5, sends 0 2]

/- The size in the answer is read from the value of `d`, where the header of `b` was. -/
theorem get_answered_gone : ∃ s history, Server.Reachable ByteArea.decodeLE 64 (fun _ _ => 0) s ∧
    (∃ as, Connections.perform as smallConnections = .ok (s.view history)) ∧
    LastStored history [98] [99] ∧ (s.connections 0).map (·.state) = some .receivingHeader ∧
    (s.view history).reading 0 = some ⟨[98], some [99], [2, 2, 0, 0, 0, 99, 2]⟩ ∧
    ¬ (s.view history).Delivered := by
  have hrun : ∃ r ∈ Server.recorded 1 answersGone smallServer [],
      (ledger r.2).stored [98] = some [99] ∧
      (r.1.connections 0).map (·.state) = some .receivingHeader ∧
      (r.1.view r.2).reading 0 = some ⟨[98], some [99], [2, 2, 0, 0, 0, 99, 2]⟩ := by
    decide +kernel
  obtain ⟨⟨s, history⟩, hs, hstored, hstate, hreading⟩ := hrun
  obtain ⟨hreach, hperform⟩ := Server.recorded_performs .opened ⟨[], rfl⟩ hs
  refine ⟨s, history, hreach, hperform, ledger_stored_iff.mp hstored, hstate, hreading, fun h => ?_⟩
  exact absurd (h.sent 0 _ hreading) (by decide)

end CacheServer
