import CacheServer.Sharing.Interleaving
import CacheServer.Sharing.KeyBlocks

/-!
# The key buffers of all connections

The blocks of malloc that are not yet freed are exactly those that the open
connections are filling with a key, each by one of them.
-/

namespace CacheServer
open EntryHeader

/-- The blocks that are not yet freed, and the number of the next one. -/
def World.heap (w : World System) : List Nat × Nat := (w.system.keyBuffers, w.system.malloced)

/-- The block that the connection fills after the call. -/
def Outcome.keyBlock (o : Outcome System) : Option Nat :=
  if o.result = .disconnect then none else o.connection.keyBlock

/-- What a call does with the heap, and with the block that the connection fills. -/
inductive HeapChange (c : Connection) (w : World System) (o : Outcome System) : Prop
  | kept (heap : o.world.heap = w.heap) (block : o.keyBlock = c.keyBlock)
      (entry : ∀ n, o.keyBlock = some n → o.connection.entryHeader = c.entryHeader)
  | malloced (before : c.keyBlock = none) (block : o.keyBlock = some w.system.malloced)
      (entry : o.connection.entryHeader = some ⟨.key w.system.malloced, 0⟩)
      (heap : o.world.heap = (w.system.malloced :: w.system.keyBuffers, w.system.malloced + 1))
  | freed (n : Nat) (before : c.keyBlock = some n) (live : n ∈ w.system.keyBuffers) (block : o.keyBlock = none)
      (heap : o.world.heap = (w.system.keyBuffers.erase n, w.system.malloced))

section
variable {c c' : Connection} {w w' : World System} {o : Outcome System} {socket : Socket}
  {p : Pointer} {call : ConnectionCall}

theorem keyBlock_of_state (h : o.connection.state ≠ .receivingBody) : o.keyBlock = none := by
  unfold Outcome.keyBlock
  split
  · rfl
  · exact keyBlock_eq_none h

theorem HeapChange.after (h : HeapChange c w o) (events : List Event) :
    HeapChange c w (o.after events) := by
  cases h with
  | kept heap block entry => exact .kept heap block entry
  | malloced before block entry heap => exact .malloced before block entry heap
  | freed n before live block heap => exact .freed n before live block heap

/-- Nothing is taken from the heap, and no key is received. -/
theorem HeapChange.quiet (hb : c.keyBlock = none) (heap : o.world.heap = w.heap)
    (block : o.keyBlock = none) : HeapChange c w o := by
  refine .kept heap (block.trans hb.symm) fun n hn => ?_
  rw [block] at hn
  cases hn

/-! ### Events -/

theorem eventReceivedHeader_heap (hb : c.keyBlock = none) :
    HeapChange c w (eventReceivedHeader c w) := by
  unfold eventReceivedHeader
  split
  · exact .quiet hb rfl rfl
  · simp only
    split <;> exact .quiet hb rfl rfl

theorem attemptMemoryWrite_heap (hb : c.keyBlock = none)
    (h : attemptMemoryWrite serverServices c w = .ok o) : HeapChange c w o := by
  unfold attemptMemoryWrite at h
  simp only [serverServices] at h
  generalize hcall : memoryQueueAllocate w.store c.keySize c.valueSize _ c.entryHeader = r at h
  cases r with
  | error fault => cases h
  | ok r =>
    obtain ⟨result, p, s'⟩ := r
    cases result with
    | outOfMemory | writeBlocked =>
      cases h
      exact .quiet hb rfl rfl
    | success | none =>
      obtain ⟨n, rfl⟩ := memoryQueueAllocate_pointer hcall (by decide)
      cases h
      exact .quiet hb rfl rfl

theorem attemptMemoryRead_heap : (attemptMemoryRead c w).world.heap = w.heap ∧
    (attemptMemoryRead c w).keyBlock = none := by
  refine ⟨?_, keyBlock_of_state (attemptMemoryRead_state c w)⟩
  unfold attemptMemoryRead
  split
  · rfl
  · split <;> rfl

theorem mallocKey_heap {size : Nat} {r : Option Pointer}
    (h : serverServices.malloc size w = (r, w')) :
    r = none ∧ w'.heap = w.heap ∨ r = some ⟨.key w.system.malloced, 0⟩ ∧
      w'.heap = (w.system.malloced :: w.system.keyBuffers, w.system.malloced + 1) := by
  simp only [serverServices, mallocKey] at h
  split at h
  · cases h
    exact Or.inl ⟨rfl, rfl⟩
  · cases h
    exact Or.inr ⟨rfl, rfl⟩

theorem eventReceivedArguments_heap (hb : c.keyBlock = none)
    (h : eventReceivedArguments serverServices c w = .ok o) : HeapChange c w o := by
  unfold eventReceivedArguments at h
  split at h
  case h_3 => exact attemptMemoryWrite_heap hb h
  case h_4 => cases h
  all_goals
    split at h
    · rename_i w' hcall
      cases h
      rcases mallocKey_heap hcall with ⟨-, hheap⟩ | ⟨hsome, -⟩
      · exact .quiet hb hheap rfl
      · cases hsome
    · rename_i p w' hcall
      cases h
      rcases mallocKey_heap hcall with ⟨hnone, -⟩ | ⟨hsome, hheap⟩
      · cases hnone
      · cases hsome
        exact .malloced hb rfl rfl hheap

theorem freeKey_heap (h : freeKey (.memory p) w = .ok w') :
    ∃ n, p = ⟨.key n, 0⟩ ∧ n ∈ w.system.keyBuffers ∧
      w'.heap = (w.system.keyBuffers.erase n, w.system.malloced) := by
  unfold freeKey at h
  split at h
  · rename_i n he
    cases he
    split at h
    · rename_i hlive
      cases h
      exact ⟨n, rfl, hlive, rfl⟩
    · cases h
  · cases h

theorem eventReceivedBody_heap (hs : c.state = .receivingBody) (hp : c.Placed)
    (h : eventReceivedBody serverServices c w = .ok o) : HeapChange c w o := by
  unfold eventReceivedBody at h
  split at h
  · rename_i p ht he
    simp only at h
    split at h
    · cases h
    · rename_i w' hfree
      cases h
      obtain ⟨n, rfl, hlive, hheap⟩ := freeKey_heap hfree
      have hread := attemptMemoryRead_heap (w := w') (c := { c with
        flags := { c.flags with allocatedBuffer := false }
        entryHeader := serverServices.entryHashMapGet ⟨.key n, 0⟩ w })
      have hblock : c.keyBlock = some n := by
        simp only [Connection.keyBlock, hs, he]
      exact .freed n hblock hlive hread.2 (hread.1.trans hheap)
  · rename_i p ht he
    simp only at h
    split at h
    · cases h
    · rename_i w' hfree
      cases h
      obtain ⟨n, rfl, hlive, hheap⟩ := freeKey_heap hfree
      have hblock : c.keyBlock = some n := by
        simp only [Connection.keyBlock, hs, he]
      exact .freed n hblock hlive rfl hheap
  · rename_i p ht he
    have hb : c.keyBlock = none := keyBlock_ring he ((hp hs p he).mp ht)
    simp only at h
    split at h <;> cases h <;> exact .quiet hb rfl rfl
  · cases h
  · cases h
  · cases h

theorem finishRequest_heap (hb : c.keyBlock = none) (hw : w'.heap = w.heap) : HeapChange c w (finishRequest c' w') := by
  unfold finishRequest
  split
  · exact .quiet hb hw rfl
  · exact .quiet hb hw rfl

theorem connectionEvent_heap (hc : c.Valid) (hp : c.Placed)
    (h : connectionEvent serverServices c w = .ok o) : HeapChange c w o := by
  have hother : c.state ≠ .receivingBody → c.keyBlock = none := keyBlock_eq_none
  cases hc.phase with
  | receivingHeader state =>
    simp only [connectionEvent, state] at h
    cases h
    exact eventReceivedHeader_heap (hother (by simp [state]))
  | receivingArguments state =>
    simp only [connectionEvent, state] at h
    exact eventReceivedArguments_heap (hother (by simp [state])) h
  | receivingBody state =>
    simp only [connectionEvent, state] at h
    exact eventReceivedBody_heap state hp h
  | awaitingWriteUnblock state | awaitingReadUnblock state =>
    simp only [connectionEvent, state] at h
    cases h
  | @sendingHeader t state buffer type final window unlocked =>
    simp only [connectionEvent, state, eventSentHeader_final type final] at h
    cases h
    exact finishRequest_heap (hother (by simp [state])) rfl
  | sendingValue state buffer type window entry unallocated locked =>
    simp only [connectionEvent, state, eventSentHeader_value type entry] at h
    cases h
    exact .quiet (hother (by simp [state])) rfl rfl
  | sendingBody state type entry unallocated locked =>
    simp only [connectionEvent, state, eventSentBody_value type entry] at h
    cases h
    refine HeapChange.after (finishRequest_heap (hother ?_) ?_) _
    · simp [state]
    · rfl

/-! ### Transfers -/

theorem keyBlock_unallocated (hc : c.Valid) (hp : c.Placed) (hf : c.flags.allocatedBuffer = false) :
    c.keyBlock = none := by
  by_cases hs : c.state = .receivingBody
  · cases hc.phase with
    | @receivingBody t p state buffer type payload window entry allocated =>
      rw [hf] at allocated
      have ht : t = .put := by simpa using allocated.symm
      rw [ht] at type
      exact keyBlock_ring entry ((hp hs p entry).mp type)
    | receivingHeader state | receivingArguments state | awaitingWriteUnblock state
    | awaitingReadUnblock state | sendingHeader state | sendingValue state | sendingBody state =>
      rw [hs] at state
      cases state
  · exact keyBlock_eq_none hs

theorem socketFailure_heap (hc : c.Valid) (hp : c.Placed)
    (h : socketFailure serverServices c w = .ok o) : o.world.heap = w.heap ∧ c.keyBlock = none := by
  unfold socketFailure at h
  cases hf : c.flags.allocatedBuffer with
  | true =>
    simp only [hf, if_true, freeKey_allocated hc hf] at h
    cases h
  | false =>
    refine ⟨?_, keyBlock_unallocated hc hp hf⟩
    simp only [hf, Bool.false_eq_true, if_false] at h
    split at h
    · split at h <;> cases h
      rfl
    · cases h
      rfl

theorem connectionTransfer_heap_eq (h : connectionTransfer serverServices socket c w = .ok o)
    (hd : o.result ≠ .disconnect) : o.world.heap = w.heap := by
  have hreturns := connectionTransfer_returns h
  cases hreturns with
  | failed failed failure closed => exact absurd closed hd
  | idle | sent => rfl
  | received bytes =>
    simp only [storeReceived]
    split <;> rfl

theorem connectionTransfer_heap (hc : c.Valid) (hp : c.Placed)
    (h : connectionTransfer serverServices socket c w = .ok o) : HeapChange c w o := by
  by_cases hd : o.result = .disconnect
  · have hreturns := connectionTransfer_returns h
    cases hreturns with
    | failed failed failure closed =>
      obtain ⟨hheap, hnone⟩ := socketFailure_heap hc hp failure
      exact .quiet hnone hheap (if_pos closed)
    | idle | received | sent => cases hd
  · have hblock : o.keyBlock = c.keyBlock := (if_neg hd).trans (connectionTransfer_keyBlock h hd)
    exact .kept (connectionTransfer_heap_eq h hd) hblock fun n _ => (connectionTransfer_kept h hd).2

/-- What any call does with the heap. -/
theorem ConnectionCall.heap (hc : c.Valid) (hp : c.Placed) (h : call.run c w = .ok o) :
    HeapChange c w o := by
  have hreturns := call.returns h
  cases hreturns with
  | transferred socket transfer => exact connectionTransfer_heap hc hp transfer
  | @completed o₁ o₂ socket transfer success complete event =>
    have hopen : o₁.result ≠ .disconnect := by rw [success]; decide
    have hvalid := connectionTransfer_valid hc transfer hopen
    have hplaced := connectionTransfer_placed hc hp transfer hopen
    have hblock := connectionTransfer_keyBlock transfer hopen
    have hentry := (connectionTransfer_kept transfer hopen).2
    have hheap := connectionTransfer_heap_eq transfer hopen
    have hsystem : o₁.world.system.keyBuffers = w.system.keyBuffers ∧
        o₁.world.system.malloced = w.system.malloced := Prod.mk.inj hheap
    cases connectionEvent_heap hvalid hplaced event with
    | kept heap block entry =>
      exact .kept (heap.trans hheap) (block.trans hblock) fun n hn => (entry n hn).trans hentry
    | malloced before block entry heap =>
      rw [hsystem.1, hsystem.2] at heap
      rw [hsystem.2] at block entry
      exact .malloced (hblock.symm.trans before) block entry heap
    | freed n before live block heap =>
      rw [hsystem.1, hsystem.2] at heap
      rw [hsystem.1] at live
      exact .freed n (hblock.symm.trans before) live block heap
  | retriedRead retry =>
    have hs : c.state = .awaitingReadUnblock := by
      by_contra hs
      simp [connectionUnblockRead, hs] at retry
    refine .quiet (keyBlock_eq_none (by simp [hs])) ?_
      (keyBlock_of_state (connectionUnblockRead_state retry))
    unfold connectionUnblockRead at retry
    rw [if_pos hs] at retry
    split at retry
    · cases retry
    · split at retry <;> cases retry <;> exact attemptMemoryRead_heap.1
  | retriedWrite retry =>
    have hs : c.state = .awaitingWriteUnblock := by
      by_contra hs
      simp [connectionUnblockWrite, hs] at retry
    unfold connectionUnblockWrite at retry
    rw [if_pos hs] at retry
    exact attemptMemoryWrite_heap (keyBlock_eq_none (by simp [hs])) retry

end

/-! ### The heap of all connections -/

namespace Connections

/-- The blocks that are not freed are those that the open connections fill, each by one of them and
from its beginning. -/
structure HeapExact (s : Connections) : Prop where
  fresh : ∀ i, s.accepted ≤ i → s.get i = none
  connection : ∀ i c, s.get i = some c → c.Valid ∧ c.Placed
  nodup : s.world.system.keyBuffers.Nodup
  bound : ∀ n ∈ s.world.system.keyBuffers, n < s.world.system.malloced
  live : ∀ n, n ∈ s.world.system.keyBuffers ↔ ∃ i c, s.get i = some c ∧ c.keyBlock = some n
  distinct : ∀ i j c c' n, s.get i = some c → s.get j = some c' → c.keyBlock = some n →
    c'.keyBlock = some n → i = j
  entry : ∀ i c n, s.get i = some c → c.keyBlock = some n → c.entryHeader = some ⟨.key n, 0⟩

section
variable {s s' : Connections} {i : Nat} {c : Connection} {o : Outcome System} {call : ConnectionCall}

theorem HeapExact.opened (hash : List UInt8 → Nat) (capacityBytes : Nat) (memory : Memory) :
    (connectionsOpen hash capacityBytes memory).HeapExact where
  fresh _ _ := rfl
  connection i c hc := by cases hc
  nodup := List.nodup_nil
  bound n hn := by cases hn
  live n := ⟨fun hn => (by cases hn), fun ⟨i, c, hc, _⟩ => by cases hc⟩
  distinct i j c c' n hc := by cases hc
  entry i c n hc := by cases hc

/-- Some connection other than `i` fills the block. -/
def FilledBeside (s : Connections) (i n : Nat) : Prop :=
  ∃ j c, j ≠ i ∧ s.get j = some c ∧ c.keyBlock = some n

theorem HeapExact.live_iff (h : s.HeapExact) (hc : s.get i = some c) (n : Nat) :
    n ∈ s.world.system.keyBuffers ↔ c.keyBlock = some n ∨ s.FilledBeside i n := by
  rw [h.live]
  constructor
  · rintro ⟨j, c', hc', hn⟩
    by_cases hji : j = i
    · subst hji
      cases hc.symm.trans hc'
      exact Or.inl hn
    · exact Or.inr ⟨j, c', hji, hc', hn⟩
  · rintro (hn | ⟨j, c', -, hc', hn⟩)
    · exact ⟨i, c, hc, hn⟩
    · exact ⟨j, c', hc', hn⟩

theorem HeapExact.not_beside (h : s.HeapExact) (hc : s.get i = some c) {n : Nat}
    (hn : c.keyBlock = some n) : ¬ s.FilledBeside i n := by
  rintro ⟨j, c', hji, hc', hn'⟩
  exact hji (h.distinct j i c' c n hc' hc hn' hn)

theorem after_filling (n : Nat) : (∃ j c, (s.after i o).get j = some c ∧ c.keyBlock = some n) ↔
    o.keyBlock = some n ∨ s.FilledBeside i n := by
  constructor
  · rintro ⟨j, c', hc', hn⟩
    by_cases hji : j = i
    · subst hji
      obtain ⟨hopen, rfl⟩ := after_get_self hc'
      exact Or.inl ((if_neg hopen).trans hn)
    · rw [after_get hji] at hc'
      exact Or.inr ⟨j, c', hji, hc', hn⟩
  · rintro (hn | ⟨j, c', hji, hc', hn⟩)
    · unfold Outcome.keyBlock at hn
      split at hn
      · cases hn
      · rename_i hopen
        exact ⟨i, o.connection, (if_pos rfl).trans (if_neg hopen), hn⟩
    · exact ⟨j, c', (after_get hji).trans hc', hn⟩

/-- A heap that is exact but for the block that the connection `i` fills after the call. -/
theorem HeapExact.after (h : s.HeapExact) (hc : s.get i = some c)
    (hconnection : o.result ≠ .disconnect → o.connection.Valid ∧ o.connection.Placed)
    (hnodup : o.world.system.keyBuffers.Nodup)
    (hbound : ∀ n ∈ o.world.system.keyBuffers, n < o.world.system.malloced)
    (hlive : ∀ n, n ∈ o.world.system.keyBuffers ↔ o.keyBlock = some n ∨ s.FilledBeside i n)
    (hbeside : ∀ n, o.keyBlock = some n → ¬ s.FilledBeside i n)
    (hentry : ∀ n, o.keyBlock = some n → o.connection.entryHeader = some ⟨.key n, 0⟩) :
    (s.after i o).HeapExact where
  fresh j hj := by
    have hji : j ≠ i := by
      rintro rfl
      cases (h.fresh j hj).symm.trans hc
    rw [after_get hji]
    exact h.fresh j hj
  connection j c' hc' := by
    by_cases hji : j = i
    · subst hji
      obtain ⟨hopen, rfl⟩ := after_get_self hc'
      exact hconnection hopen
    · rw [after_get hji] at hc'
      exact h.connection j c' hc'
  nodup := hnodup
  bound := hbound
  live n := (hlive n).trans (after_filling n).symm
  distinct j k c₁ c₂ n h₁ h₂ hn₁ hn₂ := by
    have hself : ∀ c', (s.after i o).get i = some c' → c'.keyBlock = some n → o.keyBlock = some n := by
      intro c' hc' hn
      obtain ⟨hopen, rfl⟩ := after_get_self hc'
      exact (if_neg hopen).trans hn
    by_cases hji : j = i
    · by_cases hki : k = i
      · rw [hji, hki]
      · rw [hji] at h₁
        rw [after_get hki] at h₂
        exact absurd ⟨k, c₂, hki, h₂, hn₂⟩ (hbeside n (hself c₁ h₁ hn₁))
    · rw [after_get hji] at h₁
      by_cases hki : k = i
      · rw [hki] at h₂
        exact absurd ⟨j, c₁, hji, h₁, hn₁⟩ (hbeside n (hself c₂ h₂ hn₂))
      · rw [after_get hki] at h₂
        exact h.distinct j k c₁ c₂ n h₁ h₂ hn₁ hn₂
  entry j c' n hc' hn := by
    by_cases hji : j = i
    · subst hji
      obtain ⟨hopen, rfl⟩ := after_get_self hc'
      exact hentry n ((if_neg hopen).trans hn)
    · rw [after_get hji] at hc'
      exact h.entry j c' n hc' hn

theorem HeapExact.called (h : s.HeapExact) (hc : s.get i = some c)
    (hrun : call.run c s.world = .ok o) : (s.after i o).HeapExact := by
  obtain ⟨hvalid, hplaced⟩ := h.connection i c hc
  have hopen : o.result ≠ .disconnect → o.connection.Valid ∧ o.connection.Placed := fun hopen =>
    ⟨call.run_valid hvalid hrun hopen, call.run_placed hvalid hplaced hrun hopen⟩
  have hlive := h.live_iff hc
  cases call.heap hvalid hplaced hrun with
  | kept heap block entry =>
    obtain ⟨hbuffers, hmalloced⟩ : o.world.system.keyBuffers = s.world.system.keyBuffers ∧
        o.world.system.malloced = s.world.system.malloced := Prod.mk.inj heap
    refine h.after hc hopen (hbuffers ▸ h.nodup) ?_ ?_ ?_ fun n hn => ?_
    · rw [hbuffers, hmalloced]
      exact h.bound
    · rw [hbuffers, block]
      exact hlive
    · rw [block]
      exact fun n hn => h.not_beside hc hn
    · exact (entry n hn).trans (h.entry i c n hc (block ▸ hn))
  | malloced before block entry heap =>
    obtain ⟨hbuffers, hmalloced⟩ : o.world.system.keyBuffers = _ :: s.world.system.keyBuffers ∧
        o.world.system.malloced = s.world.system.malloced + 1 := Prod.mk.inj heap
    have hnew : s.world.system.malloced ∉ s.world.system.keyBuffers := fun hmem =>
      absurd (h.bound _ hmem) (Nat.lt_irrefl _)
    refine h.after hc hopen ?_ (fun n hn => ?_) (fun n => ?_) (fun n hn hbeside => ?_) fun n hn => ?_
    · rw [hbuffers]
      exact List.nodup_cons.mpr ⟨hnew, h.nodup⟩
    · rw [hbuffers] at hn
      rw [hmalloced]
      rcases List.mem_cons.mp hn with rfl | hn
      · exact Nat.lt_succ_self _
      · exact (h.bound n hn).trans (Nat.lt_succ_self _)
    · rw [hbuffers, List.mem_cons, hlive, before, block, Option.some.injEq]
      constructor
      · rintro (rfl | hn | hn)
        · exact Or.inl rfl
        · cases hn
        · exact Or.inr hn
      · rintro (rfl | hn)
        · exact Or.inl rfl
        · exact Or.inr (Or.inr hn)
    · cases block.symm.trans hn
      exact hnew ((hlive _).mpr (Or.inr hbeside))
    · cases block.symm.trans hn
      exact entry
  | freed n before live block heap =>
    obtain ⟨hbuffers, hmalloced⟩ : o.world.system.keyBuffers = s.world.system.keyBuffers.erase n ∧
        o.world.system.malloced = s.world.system.malloced := Prod.mk.inj heap
    have hnone : ∀ m, o.keyBlock ≠ some m := fun m hm => by
      cases block.symm.trans hm
    refine h.after hc hopen ?_ (fun m hm => ?_) (fun m => ?_) (fun m hm => absurd hm (hnone m))
      fun m hm => absurd hm (hnone m)
    · rw [hbuffers]
      exact h.nodup.erase n
    · rw [hbuffers] at hm
      rw [hmalloced]
      exact h.bound m (List.mem_of_mem_erase hm)
    · rw [hbuffers, h.nodup.mem_erase_iff, hlive, before, Option.some.injEq]
      constructor
      · rintro ⟨hne, hm | hm⟩
        · exact absurd hm.symm hne
        · exact Or.inr hm
      · rintro (hm | hm)
        · exact absurd hm (hnone m)
        · refine ⟨?_, Or.inr hm⟩
          rintro rfl
          exact h.not_beside hc before hm

theorem HeapExact.accept (h : s.HeapExact) (fileDescriptor : Nat) (header arguments : ByteArea) :
    (s.accept (connectionInit fileDescriptor header arguments)).HeapExact := by
  let c := connectionInit fileDescriptor header arguments
  have hblock : c.keyBlock = none := rfl
  have hget : ∀ j c' n, (s.accept c).get j = some c' → c'.keyBlock = some n → s.get j = some c' := by
    intro j c' n hc' hn
    by_cases hj : j = s.accepted
    · subst hj
      cases (if_pos rfl).symm.trans hc'
      cases hblock.symm.trans hn
    · rwa [accept_get hj] at hc'
  refine ⟨fun j hj => ?_, fun j c' hc' => ?_, h.nodup, h.bound, fun n => ?_, ?_, ?_⟩
  · have hj : s.accepted + 1 ≤ j := hj
    rw [accept_get (by omega)]
    exact h.fresh j (by omega)
  · by_cases hj : j = s.accepted
    · subst hj
      cases (if_pos rfl).symm.trans hc'
      exact ⟨connectionInit_valid fileDescriptor header arguments, fun hs => by cases hs⟩
    · rw [accept_get hj] at hc'
      exact h.connection j c' hc'
  · refine (h.live n).trans ⟨?_, fun ⟨j, c', hc', hn⟩ => ⟨j, c', hget j c' n hc' hn, hn⟩⟩
    rintro ⟨j, c', hc', hn⟩
    have hj : j ≠ s.accepted := by
      rintro rfl
      cases (h.fresh _ le_rfl).symm.trans hc'
    exact ⟨j, c', (accept_get hj).trans hc', hn⟩
  · intro j k c₁ c₂ n h₁ h₂ hn₁ hn₂
    exact h.distinct j k c₁ c₂ n (hget j c₁ n h₁ hn₁) (hget k c₂ n h₂ hn₂) hn₁ hn₂
  · exact fun j c' n hc' hn => h.entry j c' n (hget j c' n hc' hn) hn

theorem HeapExact.step {a : Action} (h : s.HeapExact) (hstep : s.step a = .ok s') :
    s'.HeapExact := by
  cases a with
  | accept fileDescriptor header arguments =>
    cases hstep
    exact h.accept fileDescriptor header arguments
  | answer answers =>
    cases hstep
    exact ⟨h.fresh, h.connection, h.nodup, h.bound, h.live, h.distinct, h.entry⟩
  | call i call =>
    obtain ⟨c, o, hc, hrun, rfl⟩ := step_call hstep
    exact h.called hc hrun

end

end Connections

section
variable {hash : List UInt8 → Nat} {capacityBytes : Nat} {memory : Memory} {s s' : Connections}

theorem GuardedRun.keeps {guard : Connections → Action → Prop} {P : Connections → Prop}
    (run : GuardedRun guard hash capacityBytes memory s)
    (opened : P (connectionsOpen hash capacityBytes memory))
    (keeps : ∀ s a s', P s → s.step a = .ok s' → P s') : P s := by
  induction run with
  | opened => exact opened
  | stepped a run guarded step ih => exact keeps _ a _ ih step

theorem Connections.perform_keeps {P : Connections → Prop} {as : List Action}
    (keeps : ∀ s a s', P s → s.step a = .ok s' → P s') (h : P s)
    (hrun : Connections.perform as s = .ok s') : P s' := by
  induction as generalizing s with
  | nil =>
    cases hrun
    exact h
  | cons a as ih =>
    rw [Connections.perform] at hrun
    split at hrun
    · cases hrun
    · rename_i s₁ hstep
      exact ih (keeps s a s₁ h hstep) hrun

theorem GuardedRun.heapExact {guard : Connections → Action → Prop}
    (run : GuardedRun guard hash capacityBytes memory s) : s.HeapExact :=
  run.keeps (.opened hash capacityBytes memory) fun _ _ _ h hstep => h.step hstep

theorem Server.Reachable.heapExact {server : Server}
    (h : Server.Reachable hash capacityBytes memory server) : (server.view []).HeapExact := by
  obtain ⟨as, history, hrun⟩ := h.performs
  have hexact := Connections.perform_keeps (fun s a s' h hstep => h.step hstep)
    (Connections.HeapExact.opened hash capacityBytes memory) hrun
  exact ⟨hexact.fresh, hexact.connection, hexact.nodup, hexact.bound, hexact.live, hexact.distinct,
    hexact.entry⟩

end

end CacheServer
