import CacheServer.Sharing.Indexing

/-!
# Key blocks

The key of a GET or DELETE is received in a block that malloc has given to one
connection. No other connection writes there, so the block holds what its
connection has received, and a request is executed on the bytes that were sent
for it.
-/

namespace CacheServer
open EntryHeader

/-- The key block `n` of the connection `i` holds what it has received. -/
structure KeyHeld (c : Connection) (w : World System) (history : List (Nat × Event)) (i n : Nat) :
    Prop where
  malloced : n < w.system.malloced
  entry : c.entryHeader = some ⟨.key n, 0⟩
  size : keySize w.memory ⟨.key n, 0⟩ = c.keySize
  inside : c.bufferIndex ≤ c.keySize
  received : receipt history i = some ⟨⟨.key n, 0⟩, w.memory.read ⟨.key n, 16⟩ c.bufferIndex⟩

def Connection.Keyed (c : Connection) (w : World System) (history : List (Nat × Event)) (i : Nat) :
    Prop :=
  ∀ n, c.keyBlock = some n → KeyHeld c w history i n

/-- Only a new block is taken for a key. -/
def Outcome.Fresh (o : Outcome System) (w : World System) (history : List (Nat × Event)) (i : Nat) :
    Prop :=
  ∀ n, o.connection.keyBlock = some n →
    w.system.malloced ≤ n ∧ KeyHeld o.connection o.world (extend history i o.events) i n

section
variable {history : List (Nat × Event)} {i j n : Nat} {c : Connection} {w w' : World System}
  {o : Outcome System} {socket : Socket} {p : Pointer} {es : List Slot} {H : Pointer → Nat}
  {F : Slot → Prop}

theorem keyBlock_eq_none (h : c.state ≠ .receivingBody) : c.keyBlock = none := by
  unfold Connection.keyBlock
  split
  · rename_i hs _
    exact absurd hs h
  · rfl

theorem keyBlock_ring (hp : c.entryHeader = some p) (hring : p.block = .ring) : c.keyBlock = none := by
  obtain ⟨block, offset⟩ := p
  cases hring
  unfold Connection.keyBlock
  rw [hp]
  split
  · rename_i hblock
    cases hblock
  · rfl

/-- Another connection calls. -/
theorem KeyHeld.kept (h : KeyHeld c w history j n) (hm : w.system.malloced ≤ w'.system.malloced)
    (hsame : w'.memory (.key n) = w.memory (.key n)) (hji : j ≠ i) (events : List Event) :
    KeyHeld c w' (extend history i events) j n := by
  refine ⟨lt_of_lt_of_le h.malloced hm, h.entry, ?_, h.inside, ?_⟩
  · rw [← h.size]
    exact load_congr fun a _ _ => congrFun hsame a
  · rw [receipt_other hji, h.received]
    congr 2
    exact (Memory.read_congr fun a _ _ => congrFun hsame a).symm

theorem KeyHeld.received_bytes {bytes : List UInt8} (h : KeyHeld c w history i n)
    (hle : c.bufferIndex + bytes.length ≤ c.keySize) :
    KeyHeld (advance c bytes.length)
      { w with memory := w.memory.write (Pointer.add ⟨.key n, 16⟩ c.bufferIndex) bytes }
      (extend history i [.received bytes]) i n := by
  refine ⟨h.malloced, h.entry, ?_, hle, ?_⟩
  · refine (load_congr fun a h1 h2 => ?_).trans h.size
    refine Memory.write_outside _ _ _ (Or.inr (Or.inl ?_))
    change a < 0 + 12 + 2 at h2
    show a < 16 + c.bufferIndex
    omega
  · have hread := w.memory.read_write_next ⟨.key n, 16⟩ c.bufferIndex bytes
    rw [receipt_extend, h.received]
    refine (if_pos rfl).trans ?_
    rw [Option.map_some, ← hread]
    rfl

/-! ### Calls -/

theorem connectionTransfer_keyBlock (ht : connectionTransfer serverServices socket c w = .ok o)
    (hopen : o.result ≠ .disconnect) : o.connection.keyBlock = c.keyBlock := by
  obtain ⟨hstate, hentry⟩ := connectionTransfer_kept ht hopen
  unfold Connection.keyBlock
  rw [hstate, hentry]

theorem connectionTransfer_keyed (hc : c.Valid) (hp : c.Placed) (h : c.Keyed w history i)
    (ht : connectionTransfer serverServices socket c w = .ok o) (hopen : o.result ≠ .disconnect) :
    o.connection.Keyed o.world (extend history i o.events) i := by
  intro n hn
  rw [connectionTransfer_keyBlock ht hopen] at hn
  have hheld := h n hn
  have hs : c.state = .receivingBody := by
    by_contra hs
    cases (keyBlock_eq_none hs).symm.trans hn
  have hreturns := connectionTransfer_returns ht
  cases hreturns with
  | failed _ _ closed => exact absurd closed hopen
  | idle =>
    rw [extend_nil]
    exact hheld
  | sent bytes state =>
    rw [hs] at state
    cases state
  | received bytes state nonempty le =>
    obtain ⟨t, p, buffer, type, payload, window, entry, -⟩ := hc.receivingBody hs
    simp only [storeReceived, buffer]
    cases entry.symm.trans hheld.entry
    have ht : t ≠ .put := fun hput => by
      subst hput
      cases (hp hs _ entry).mp type
    refine hheld.received_bytes ?_
    have hsize : bodySize c t = c.keySize := by
      cases t with
      | put => exact absurd rfl ht
      | ping => exact absurd rfl payload
      | get | delete => rfl
    rw [← hsize, ← window]
    omega

theorem Outcome.Fresh.of_none (h : o.connection.keyBlock = none) : o.Fresh w history i := by
  intro n hn
  cases h.symm.trans hn

theorem Outcome.Fresh.of_state (h : o.connection.state ≠ .receivingBody) : o.Fresh w history i :=
  .of_none (keyBlock_eq_none h)

theorem attemptMemoryWrite_fresh (h : attemptMemoryWrite serverServices c w = .ok o) :
    o.Fresh w history i := by
  unfold attemptMemoryWrite at h
  simp only [serverServices] at h
  generalize hcall : memoryQueueAllocate w.store c.keySize c.valueSize _ c.entryHeader = r at h
  cases r with
  | error fault => cases h
  | ok r =>
    obtain ⟨result, p, s'⟩ := r
    cases result with
    | outOfMemory | writeBlocked =>
      cases h
      exact .of_state (by simp [sendHeader])
    | success | none =>
      obtain ⟨n, rfl⟩ := memoryQueueAllocate_pointer hcall (by decide)
      cases h
      exact .of_none (keyBlock_ring rfl rfl)

theorem malloced_fresh {size : Nat} (hm : serverServices.malloc size w = (some p, w')) :
    Outcome.Fresh ⟨.success, { c with
      entryHeader := some p
      flags := { c.flags with allocatedBuffer := true }
      buffer := .memory (p.add entryHeaderSize)
      remainingBytes := c.keySize
      bufferIndex := 0
      state := .receivingBody }, { w' with memory := setKeySize w'.memory p c.keySize },
        [.malloced p]⟩ w history i := by
  obtain ⟨-, -, -, -, hp⟩ := mallocKey_frame hm
  obtain rfl := hp p rfl
  have hmalloced : w'.system.malloced = w.system.malloced + 1 := by
    simp only [serverServices, mallocKey] at hm
    split at hm <;> cases hm
    rfl
  intro n hn
  cases hn
  refine ⟨le_rfl, ?_, rfl, ?_, Nat.zero_le _, ?_⟩
  · show w.system.malloced < w'.system.malloced
    omega
  · show keySize (setKeySize w'.memory _ c.keySize) _ = c.keySize
    unfold keySize setKeySize
    rw [load_store_same]
    exact Nat.mod_eq_of_lt (ByteArea.loadLE_lt c.arguments 0 2)
  · rw [receipt_extend]
    exact if_pos rfl

theorem connectionEvent_fresh (hc : c.Valid) (h : connectionEvent serverServices c w = .ok o) :
    o.Fresh w history i := by
  by_cases hs : o.connection.state = .receivingBody
  · have harguments := connectionEvent_body hc h hs
    unfold eventReceivedArguments at harguments
    split at harguments
    · split at harguments <;> cases harguments
      · cases hs
      · rename_i hm
        exact malloced_fresh hm
    · split at harguments <;> cases harguments
      · cases hs
      · rename_i hm
        exact malloced_fresh hm
    · exact attemptMemoryWrite_fresh harguments
    · cases harguments
  · exact .of_state hs

theorem ConnectionCall.keyed {call : ConnectionCall} (hc : c.Valid) (hp : c.Placed) (hb : Base w es H F c.lock c.region)
    (h : c.Keyed w history i) (hrun : call.run c w = .ok o) (hopen : o.result ≠ .disconnect) :
    o.connection.Keyed o.world (extend history i o.events) i ∧
      ∀ n, o.connection.keyBlock = some n → c.keyBlock = some n ∨ w.system.malloced ≤ n := by
  have hreturns := call.returns hrun
  cases hreturns with
  | transferred socket transfer =>
    refine ⟨connectionTransfer_keyed hc hp h transfer hopen, fun n hn => Or.inl ?_⟩
    rw [← connectionTransfer_keyBlock transfer hopen]
    exact hn
  | @completed o₁ o₂ socket transfer success complete event =>
    have hvalid := connectionTransfer_valid hc transfer (by rw [success]; decide)
    have hkeys := (connectionTransfer_effect hc hp transfer).keys hb
    have hfresh : o₂.Fresh o₁.world (extend history i o₁.events) i := connectionEvent_fresh hvalid event
    have hmalloced := hkeys.malloced
    refine ⟨fun n hn => ?_, fun n hn => Or.inr (hmalloced.trans (hfresh n hn).1)⟩
    have hheld := (hfresh n hn).2
    rw [← extend_append] at hheld
    exact hheld
  | retriedRead retry =>
    have hnone := keyBlock_eq_none (connectionUnblockRead_state retry)
    refine ⟨fun n hn => ?_, fun n hn => ?_⟩ <;> cases hnone.symm.trans hn
  | retriedWrite retry =>
    unfold connectionUnblockWrite at retry
    split at retry
    · have hfresh : o.Fresh w history i := attemptMemoryWrite_fresh retry
      exact ⟨fun n hn => (hfresh n hn).2, fun n hn => Or.inr (hfresh n hn).1⟩
    · cases retry

theorem ConnectionCall.reached_keyBlock {call : ConnectionCall} {c' : Connection}
    (h : call.reached c w = some (c', w')) :
    c'.keyBlock = c.keyBlock := by
  obtain ⟨hstate, hentry⟩ := reached_kept h
  unfold Connection.keyBlock
  rw [hstate, hentry]

theorem ConnectionCall.keys {call : ConnectionCall} (hc : c.Valid) (hp : c.Placed) (careful : call.Careful c w F)
    (hb : Base w es H F c.lock c.region) (hrun : call.run c w = .ok o) : KeysKept c w o := by
  rcases call.run_effect hc hp hrun with ⟨ht, -⟩ | ⟨o₁, o₂, ht, hresult, hreach, he, rfl, -⟩
  · exact ht.keys hb
  · have hopen : o₁.result ≠ .disconnect := by rw [hresult]; decide
    obtain ⟨hbase, -⟩ := ht.base hb
    rw [o₁.lock_eq hopen, o₁.region_eq hopen] at hbase
    have hfirst := ht.keys hb
    have hlast := he.keys (careful _ hreach) hbase
    refine ⟨hfirst.malloced.trans hlast.malloced, fun n hn hne => ?_⟩
    rw [← hfirst.memory n hn hne]
    refine hlast.memory n (lt_of_lt_of_le hn hfirst.malloced) ?_
    rw [reached_keyBlock hreach]
    exact hne

/-! ### Steps -/

namespace Connections

/-- Every connection has its key block for itself. -/
structure KeysOwned (s : Connections) : Prop where
  keyed : ∀ i c, s.get i = some c → c.Keyed s.world s.history i
  distinct : ∀ i j c c' n, s.get i = some c → s.get j = some c' → c.keyBlock = some n →
    c'.keyBlock = some n → i = j

variable {s : Connections}

theorem KeysOwned.call {call : ConnectionCall} (h : s.KeysOwned) (howned : s.Owned es) (hc : s.get i = some c)
    (careful : call.Careful c s.world (s.FilledElsewhere i)) (hrun : call.run c s.world = .ok o) :
    (s.after i o).KeysOwned := by
  obtain ⟨hvalid, hplaced⟩ := howned.connection i c hc
  have hbase := howned.base i
  rw [lock_eq hc, region_eq hc] at hbase
  have hkeys := call.keys hvalid hplaced careful hbase hrun
  have hother : ∀ j c' n, j ≠ i → s.get j = some c' → c'.keyBlock = some n →
      n < s.world.system.malloced ∧ c.keyBlock ≠ some n := by
    intro j c' n hji hc' hn
    exact ⟨(h.keyed j c' hc' n hn).malloced, fun hn' => hji (h.distinct j i c' c n hc' hc hn hn')⟩
  refine ⟨fun j c' hc' n hn => ?_, ?_⟩
  · by_cases hji : j = i
    · subst hji
      obtain ⟨hopen, rfl⟩ := after_get_self hc'
      exact (call.keyed hvalid hplaced hbase (h.keyed j c hc) hrun hopen).1 n hn
    · rw [after_get hji] at hc'
      obtain ⟨hlt, hne⟩ := hother j c' n hji hc' hn
      exact (h.keyed j c' hc' n hn).kept hkeys.malloced (hkeys.memory n hlt hne) hji o.events
  · have hnew : ∀ j c' c'' n, j ≠ i → s.get j = some c' → (s.after i o).get i = some c'' →
        c'.keyBlock = some n → c''.keyBlock = some n → False := by
      intro j c' c'' n hji hc' hc'' hn hn''
      obtain ⟨hopen, rfl⟩ := after_get_self hc''
      obtain ⟨hlt, hne⟩ := hother j c' n hji hc' hn
      rcases (call.keyed hvalid hplaced hbase (h.keyed i c hc) hrun hopen).2 n hn'' with hold | hle
      · exact hne hold
      · omega
    intro j k c₁ c₂ n h₁ h₂ hn₁ hn₂
    by_cases hji : j = i
    · by_cases hki : k = i
      · rw [hji, hki]
      · rw [hji] at h₁
        rw [after_get hki] at h₂
        exact (hnew k c₂ c₁ n hki h₂ h₁ hn₂ hn₁).elim
    · rw [after_get hji] at h₁
      by_cases hki : k = i
      · rw [hki] at h₂
        exact (hnew j c₁ c₂ n hji h₁ h₂ hn₁ hn₂).elim
      · rw [after_get hki] at h₂
        exact h.distinct j k c₁ c₂ n h₁ h₂ hn₁ hn₂

theorem KeysOwned.accept (h : s.KeysOwned) (hc : c.keyBlock = none) : (s.accept c).KeysOwned := by
  have hself : ∀ c', (s.accept c).get s.accepted = some c' → c' = c :=
    fun c' hc' => (Option.some.inj ((if_pos rfl).symm.trans hc')).symm
  refine ⟨fun j c' hc' n hn => ?_, fun j k c₁ c₂ n h₁ h₂ hn₁ hn₂ => ?_⟩
  · by_cases hj : j = s.accepted
    · subst hj
      rw [hself c' hc'] at hn
      cases hc.symm.trans hn
    · rw [accept_get hj] at hc'
      exact h.keyed j c' hc' n hn
  · by_cases hj : j = s.accepted
    · subst hj
      rw [hself c₁ h₁] at hn₁
      cases hc.symm.trans hn₁
    · by_cases hk : k = s.accepted
      · subst hk
        rw [hself c₂ h₂] at hn₂
        cases hc.symm.trans hn₂
      · rw [accept_get hj] at h₁
        rw [accept_get hk] at h₂
        exact h.distinct j k c₁ c₂ n h₁ h₂ hn₁ hn₂

end Connections

end

end CacheServer
