import CacheServer.Scheduler.Schedule
import CacheServer.Wire.Overlay

/-!
# Phases without bytes

`remaining_bytes` of a body is taken from the sizes of the request or the entry.
recv and send of no bytes return 0, which connection_transfer takes for a socket
that is not ready: a phase that is entered with nothing to transfer never ends.
-/

namespace CacheServer
open EntryHeader

/-- There is something to transfer. -/
def Connection.HasBytes (c : Connection) : Prop :=
  c.state.receiving = true ∨ c.state.sending = true → 0 < c.remainingBytes

instance (c : Connection) : Decidable c.HasBytes := inferInstanceAs (Decidable (_ → _))

section
variable {σ : Type} (S : Services σ)

/-- memory_queue_allocate gives an entry for no bytes. -/
def WritesNothing (c : Connection) (w : World σ) : Prop :=
  (c.keySize + c.valueSize) % 2 ^ 32 = 0 ∧
    ∃ result p w', S.memoryQueueAllocate c.keySize c.valueSize
      (S.timeGetTimestamp w + S.entryExpiryMicros w) c.entryHeader w = .ok (result, p, w') ∧
        result ≠ .outOfMemory ∧ result ≠ .writeBlocked

/-- The switch of connection_proc goes on to a phase without bytes. -/
def EntersNothing (c : Connection) (w : World σ) : Prop :=
  match c.state, c.requestType with
  | .receivingArguments, some .put => WritesNothing S c w
  | .receivingArguments, _ =>
    c.keySize = 0 ∧ (S.malloc (entryHeaderSize + c.keySize) w).1 ≠ none
  | .sendingHeader, _ =>
    c.responseType = some .value ∧ ∃ p, c.entryHeader = some p ∧ valueSize w.memory p = 0
  | _, _ => False

def ProceedsToNothing (socket : Socket) (c : Connection) (w : World σ) : Prop :=
  ∃ c' w' events, connectionTransfer S socket c w = .ok ⟨.success, c', w', events⟩ ∧
    c'.remainingBytes = 0 ∧ EntersNothing S c' w'

/-- The connections that calls produce which enter no phase without bytes. In between, anything
may be done to the world. -/
inductive FilledRun (S : Services σ) : Connection → Prop
  | opened (fileDescriptor : Nat) (header arguments : ByteArea) :
      FilledRun S (connectionInit fileDescriptor header arguments)
  | proceeded {c : Connection} {o : Outcome σ} (socket : Socket) (w : World σ) (run : FilledRun S c)
      (filled : ¬ ProceedsToNothing S socket c w) (call : connectionProc S socket c w = .ok o)
      (open_ : o.result ≠ .disconnect) : FilledRun S o.connection
  | unblockedRead {c : Connection} {o : Outcome σ} (w : World σ) (run : FilledRun S c)
      (call : connectionUnblockRead S c w = .ok o) : FilledRun S o.connection
  | unblockedWrite {c : Connection} {o : Outcome σ} (w : World σ) (run : FilledRun S c)
      (filled : ¬ WritesNothing S c w) (call : connectionUnblockWrite S c w = .ok o) :
      FilledRun S o.connection

end

section
variable {σ : Type} {S : Services σ} {socket : Socket} {c : Connection} {w : World σ} {o : Outcome σ}

/-- The call goes on to a phase with bytes unless `nothing` holds, and is no idle transfer. -/
structure Outcome.Enters (o : Outcome σ) (nothing : Prop) : Prop where
  bytes : o.connection.HasBytes ↔ ¬ nothing
  busy : o.result ≠ .noTransfer

theorem Outcome.Enters.of_pos {nothing : Prop} (hpos : 0 < o.connection.remainingBytes)
    (hnothing : ¬ nothing) (hbusy : o.result ≠ .noTransfer) : o.Enters nothing :=
  ⟨iff_of_true (fun _ => hpos) hnothing, hbusy⟩

theorem Outcome.Enters.of_blocked {nothing : Prop} {t : BlockType}
    (hstate : o.connection.state.awaits = some t) (hnothing : ¬ nothing) (hbusy : o.result ≠ .noTransfer) :
    o.Enters nothing := by
  refine ⟨iff_of_true (fun hs => ?_) hnothing, hbusy⟩
  cases (awaits_of_transferring hs).symm.trans hstate

/- A body of `n` bytes. -/
theorem Outcome.Enters.of_size {nothing : Prop} {n : Nat} (hn : o.connection.remainingBytes = n)
    (hs : o.connection.state.receiving = true ∨ o.connection.state.sending = true)
    (hnothing : nothing ↔ n = 0) (hbusy : o.result ≠ .noTransfer) : o.Enters nothing := by
  refine ⟨?_, hbusy⟩
  rw [hnothing]
  constructor
  · intro hbytes hzero
    have hpos := hbytes hs
    omega
  · intro hne _
    omega

theorem Outcome.Enters.congr {nothing nothing' : Prop} (h : o.Enters nothing) (hiff : nothing ↔ nothing') :
    o.Enters nothing' := ⟨h.bytes.trans (not_congr hiff), h.busy⟩

/-! ### Events -/

theorem attemptMemoryRead_enters (c : Connection) (w : World σ) : (attemptMemoryRead c w).Enters False := by
  unfold attemptMemoryRead
  split
  · exact .of_pos Nat.one_pos id (by simp)
  · split
    · exact .of_blocked rfl id (by simp)
    · exact .of_pos (Nat.succ_pos 4) id (by simp)

theorem attemptMemoryWrite_enters (h : attemptMemoryWrite S c w = .ok o) :
    o.Enters (WritesNothing S c w) := by
  unfold attemptMemoryWrite at h
  unfold WritesNothing
  split at h
  · cases h
  · rename_i hcall
    cases h
    rw [hcall]
    refine .of_pos Nat.one_pos ?_ (by simp)
    rintro ⟨-, result, p, w', hresult, hoom, -⟩
    cases hresult
    exact hoom rfl
  · rename_i hcall
    cases h
    rw [hcall]
    refine .of_blocked rfl ?_ (by simp)
    rintro ⟨-, result, p, w', hresult, -, hblocked⟩
    cases hresult
    exact hblocked rfl
  · cases h
  · rename_i result p w' hoom hblocked hcall
    cases h
    rw [hcall]
    refine .of_size rfl (Or.inl rfl) ⟨fun hnothing => hnothing.1, fun hzero => ⟨hzero, ?_⟩⟩ (by simp)
    exact ⟨result, _, _, rfl, fun he => hoom he, fun he => hblocked he⟩

theorem finishRequest_enters (c : Connection) (w : World σ)
    (hopen : (finishRequest c w).result ≠ .disconnect) : (finishRequest c w).Enters False := by
  unfold finishRequest at hopen ⊢
  split
  · exact .of_pos (Nat.succ_pos 3) id (by simp)
  · rename_i hkeep
    rw [if_neg hkeep] at hopen
    exact absurd rfl hopen

theorem eventReceivedHeader_enters (c : Connection) (w : World σ) :
    (eventReceivedHeader c w).Enters False := by
  unfold eventReceivedHeader
  split
  · exact .of_pos Nat.one_pos id (by simp)
  · simp only
    split
    · exact .of_pos Nat.one_pos id (by simp)
    · exact .of_pos (Nat.succ_pos 1) id (by simp)
    · exact .of_pos (Nat.succ_pos 1) id (by simp)
    · exact .of_pos (Nat.succ_pos 5) id (by simp)
    · exact .of_pos Nat.one_pos id (by simp)

theorem eventReceivedArguments_enters (state : c.state = .receivingArguments)
    (h : eventReceivedArguments S c w = .ok o) : o.Enters (EntersNothing S c w) := by
  unfold eventReceivedArguments at h
  unfold EntersNothing
  rw [state]
  split at h
  · rename_i ht
    simp only [ht]
    split at h <;> rename_i hcall <;> cases h <;> rw [hcall]
    · exact .of_pos Nat.one_pos (by simp) (by simp)
    · exact .of_size rfl (Or.inl rfl) (by simp) (by simp)
  · rename_i ht
    simp only [ht]
    split at h <;> rename_i hcall <;> cases h <;> rw [hcall]
    · exact .of_pos Nat.one_pos (by simp) (by simp)
    · exact .of_size rfl (Or.inl rfl) (by simp) (by simp)
  · rename_i ht
    simp only [ht]
    exact attemptMemoryWrite_enters h
  · cases h

theorem eventReceivedBody_enters (h : eventReceivedBody S c w = .ok o) : o.Enters False := by
  unfold eventReceivedBody at h
  split at h
  · rename_i p ht hp
    simp only at h
    split at h <;> cases h
    obtain ⟨hbytes, hbusy⟩ := attemptMemoryRead_enters { c with
      flags := { c.flags with allocatedBuffer := false }
      entryHeader := S.entryHashMapGet p w } _
    exact ⟨hbytes, hbusy⟩
  · simp only at h
    split at h <;> cases h
    exact .of_pos Nat.one_pos id (by simp)
  · simp only at h
    split at h <;> cases h <;> exact .of_pos Nat.one_pos id (by simp)
  · cases h
  · cases h
  · cases h

/-- What the switch of connection_proc goes on to. -/
theorem connectionEvent_enters (hc : c.Valid) (h : connectionEvent S c w = .ok o)
    (hopen : o.result ≠ .disconnect) : o.Enters (EntersNothing S c w) := by
  obtain ⟨hphase, -⟩ := hc
  cases hphase with
  | receivingHeader state =>
    simp only [connectionEvent, state] at h
    cases h
    refine (eventReceivedHeader_enters c w).congr ?_
    simp [EntersNothing, state]
  | receivingArguments state =>
    simp only [connectionEvent, state] at h
    exact eventReceivedArguments_enters state h
  | receivingBody state =>
    simp only [connectionEvent, state] at h
    refine (eventReceivedBody_enters h).congr ?_
    simp [EntersNothing, state]
  | awaitingWriteUnblock state | awaitingReadUnblock state =>
    simp only [connectionEvent, state] at h
    cases h
  | @sendingHeader t state buffer type final =>
    simp only [connectionEvent, state, eventSentHeader_final type final] at h
    cases h
    refine (finishRequest_enters _ w hopen).congr ?_
    simp [EntersNothing, state, type, final]
  | @sendingValue p state buffer type window entry =>
    simp only [connectionEvent, state, eventSentHeader_value type entry] at h
    cases h
    refine .of_size rfl (Or.inr rfl) ?_ (by simp)
    simp [EntersNothing, state, type, entry]
  | sendingBody state type entry =>
    simp only [connectionEvent, state, eventSentBody_value type entry] at h
    cases h
    obtain ⟨hbytes, hbusy⟩ := finishRequest_enters _ _ hopen
    refine Outcome.Enters.congr ⟨hbytes, hbusy⟩ ?_
    simp [EntersNothing, state]

/-! ### Calls -/

/- recv and send of no bytes. -/
theorem connectionProc_stuck (hs : c.state.receiving = true ∨ c.state.sending = true)
    (hzero : c.remainingBytes = 0) (hf : socket.failed = false) (w : World σ) :
    connectionProc S socket c w = .ok ⟨.noTransfer, c, w, []⟩ := by
  have htransfer : connectionTransfer S socket c w = .ok ⟨.noTransfer, c, w, []⟩ := by
    rcases hs with hs | hs
    · rw [connectionTransfer_receiving _ _ _ _ hs, Socket.recv, hf, hzero]
      rfl
    · have hnil : pendingBytes c w = [] :=
        List.eq_nil_of_length_eq_zero ((pendingBytes_length c w).trans hzero)
      rw [connectionTransfer_sending _ _ _ _ hs, Socket.send, hf, hnil]
      rfl
  rw [connectionProc_eq_of_transfer _ _ _ _ htransfer]
  rfl

theorem connectionTransfer_kept_of_idle (h : connectionTransfer S socket c w = .ok o)
    (hother : o.result ≠ .success) (hopen : o.result ≠ .disconnect) : o.connection = c := by
  have hreturns := connectionTransfer_returns h
  cases hreturns with
  | failed _ _ closed => exact absurd closed hopen
  | idle => rfl
  | received | sent => exact absurd rfl hother

/-- A transfer of at least one byte is idle only where the socket is. -/
theorem connectionTransfer_idle (hbytes : c.HasBytes) (h : connectionTransfer S socket c w = .ok o)
    (hidle : o.result = .noTransfer) : (c.state.receiving = true → socket.incoming = []) ∧
      (c.state.sending = true → socket.room = 0) := by
  have hworks : socketFailure S c w ≠ .ok o := fun hfailure => by
    cases (socketFailure_result hfailure).symm.trans hidle
  refine ⟨fun hs => ?_, fun hs => ?_⟩
  · have hpos : c.remainingBytes ≠ 0 := (hbytes (Or.inl hs)).ne'
    by_contra hne
    have hbytes : socket.incoming.take c.remainingBytes ≠ [] := by
      simp [List.take_eq_nil_iff, hpos, hne]
    rw [connectionTransfer_receiving _ _ _ _ hs, Socket.recv, if_neg hpos, if_neg hne] at h
    generalize socket.incoming.take c.remainingBytes = bytes at h hbytes
    split at h
    · exact hworks h
    · rename_i hrecv
      split at hrecv <;> cases hrecv
    · rename_i hrecv
      split at hrecv <;> cases hrecv
      exact hbytes rfl
    · cases h
      cases hidle
  · have hpos : c.remainingBytes ≠ 0 := (hbytes (Or.inr hs)).ne'
    by_contra hne
    have hpending : pendingBytes c w ≠ [] := fun hnil => hpos (by
      rw [← pendingBytes_length c w, hnil]
      rfl)
    have hbytes : (pendingBytes c w).take socket.room ≠ [] := by
      simp [List.take_eq_nil_iff, hpending, hne]
    rw [connectionTransfer_sending _ _ _ _ hs, Socket.send, if_neg hpending, if_neg hne] at h
    generalize (pendingBytes c w).take socket.room = bytes at h hbytes
    split at h
    · exact hworks h
    · rename_i hsend
      split at hsend <;> cases hsend
    · rename_i hsend
      split at hsend <;> cases hsend
      exact hbytes rfl
    · cases h
      cases hidle

theorem connectionProc_enters (hc : c.Valid) (hbytes : c.HasBytes)
    (h : connectionProc S socket c w = .ok o) (hopen : o.result ≠ .disconnect) :
    (o.connection.HasBytes ↔ ¬ ProceedsToNothing S socket c w) ∧
      (o.result = .noTransfer → (c.state.receiving = true → socket.incoming = []) ∧
        (c.state.sending = true → socket.room = 0)) := by
  have hreturns := connectionProc_returns h
  cases hreturns with
  | unsuccessful transfer other =>
    refine ⟨iff_of_true ?_ ?_, connectionTransfer_idle hbytes transfer⟩
    · rw [connectionTransfer_kept_of_idle transfer other hopen]
      exact hbytes
    · rintro ⟨c', w', events, htransfer, -⟩
      cases transfer.symm.trans htransfer
      exact other rfl
  | incomplete transfer success more =>
    refine ⟨iff_of_true (fun _ => Nat.pos_of_ne_zero more) ?_, fun hidle => ?_⟩
    · rintro ⟨c', w', events, htransfer, hzero, -⟩
      cases transfer.symm.trans htransfer
      exact more hzero
    · cases success.symm.trans hidle
  | @completed o₁ o₂ transfer success complete event =>
    have hvalid := connectionTransfer_valid hc transfer (by rw [success]; decide)
    obtain ⟨henters, hbusy⟩ := connectionEvent_enters hvalid event hopen
    refine ⟨henters.trans (not_congr ⟨fun hnothing => ?_, ?_⟩), fun hidle => absurd hidle hbusy⟩
    · obtain ⟨result, c₁, w₁, events⟩ := o₁
      cases success
      exact ⟨c₁, w₁, events, transfer, complete, hnothing⟩
    · rintro ⟨c', w', events, htransfer, -, hnothing⟩
      cases transfer.symm.trans htransfer
      exact hnothing

theorem connectionUnblockRead_enters (h : connectionUnblockRead S c w = .ok o) : o.Enters False := by
  unfold connectionUnblockRead at h
  split at h
  · split at h
    · cases h
    · split at h <;> cases h
      · obtain ⟨hbytes, hbusy⟩ := attemptMemoryRead_enters { c with entryHeader := S.entryHashMapGet _ w } w
        exact ⟨hbytes, hbusy⟩
      · exact attemptMemoryRead_enters c w
  · cases h

theorem connectionUnblockWrite_enters (h : connectionUnblockWrite S c w = .ok o) :
    o.Enters (WritesNothing S c w) := by
  unfold connectionUnblockWrite at h
  split at h
  · exact attemptMemoryWrite_enters h
  · cases h

/-! ### Runs -/

theorem FilledRun.hasBytes (run : FilledRun S c) : c.Valid ∧ c.HasBytes := by
  induction run with
  | opened fileDescriptor header arguments => exact ⟨connectionInit_valid .., fun _ => Nat.succ_pos 3⟩
  | proceeded socket w run filled call open_ ih =>
    exact ⟨connectionProc_valid ih.1 call open_, (connectionProc_enters ih.1 ih.2 call open_).1.mpr filled⟩
  | unblockedRead w run call ih =>
    refine ⟨connectionUnblockRead_valid ih.1 call ?_, (connectionUnblockRead_enters call).bytes.mpr id⟩
    rcases connectionUnblockRead_result call with hr | hr <;> rw [hr] <;> decide
  | unblockedWrite w run filled call ih =>
    refine ⟨connectionUnblockWrite_valid ih.1 call ?_, (connectionUnblockWrite_enters call).bytes.mpr filled⟩
    rcases connectionUnblockWrite_result call with hr | hr <;> rw [hr] <;> decide

/-- No phase is empty as long as none is entered with nothing to transfer, and then a connection
waits only for its socket. -/
theorem phases_filled_iff (run : FilledRun S c) : c.HasBytes ∧
    (∀ socket w o, connectionProc S socket c w = .ok o → o.result ≠ .disconnect →
      (o.connection.HasBytes ↔ ¬ ProceedsToNothing S socket c w)) ∧
    (∀ w o, connectionUnblockWrite S c w = .ok o →
      (o.connection.HasBytes ↔ ¬ WritesNothing S c w)) ∧
    ∀ socket w o, connectionProc S socket c w = .ok o → o.result = .noTransfer →
      (c.state.receiving = true → socket.incoming = []) ∧
        (c.state.sending = true → socket.room = 0) := by
  obtain ⟨hvalid, hbytes⟩ := run.hasBytes
  refine ⟨hbytes, fun socket w o call hopen => ?_, fun w o call => ?_, fun socket w o call hidle => ?_⟩
  · exact (connectionProc_enters hvalid hbytes call hopen).1
  · exact (connectionUnblockWrite_enters call).bytes
  · exact (connectionProc_enters hvalid hbytes call (by rw [hidle]; decide)).2 hidle

end

/- A `PUT`, and a `GET` up to its value, over sockets that give and take all they can. -/
theorem phases_filled_get : ∃ c w o, FilledRun serverServices c ∧ c.state = .sendingBody ∧ c.HasBytes ∧
    connectionProc serverServices ⟨[], false, 1, false⟩ c w = .ok o ∧ o.connection.HasBytes ∧
      ¬ ProceedsToNothing serverServices ⟨[], false, 1, false⟩ c w := by
  let test (_ : Connection) (o : Outcome System) : Bool :=
    o.result ≠ .disconnect ∧ o.connection.HasBytes
  have hstep : ∀ socket c w o, FilledRun serverServices c →
      connectionProc serverServices socket c w = .ok o → test c o = true →
        FilledRun serverServices o.connection := by
    intro socket c w o run call htest
    obtain ⟨hopen, hbytes⟩ := of_decide_eq_true htest
    obtain ⟨hvalid, hfilled⟩ := run.hasBytes
    exact .proceeded socket w run ((connectionProc_enters hvalid hfilled call hopen).1.mp hbytes) call hopen
  have hrun : ∃ r ∈ proceeded serverServices test (storesAndReads ++ [⟨[], false, 5, false⟩])
      (connectionInit 5 (fun _ => 0) fun _ => 0) smallServer.world, r.1.state = .sendingBody ∧
        (connectionProc serverServices ⟨[], false, 1, false⟩ r.1 r.2).Gives fun o =>
          o.result ≠ .disconnect ∧ o.connection.HasBytes := by
    decide +kernel
  obtain ⟨⟨c, w⟩, hc, hstate, o, call, hopen, hbytes⟩ := hrun
  have run : FilledRun serverServices c := proceeded_keeps hstep (.opened 5 _ _) hc
  obtain ⟨hfilled, hproc, -⟩ := phases_filled_iff run
  exact ⟨c, w, o, run, hstate, hfilled, call, hbytes, (hproc _ w o call hopen).mp hbytes⟩

/-- `PUT a` with an empty value, and `GET a`. -/
def readsEmpty : List Environment :=
  [connects 0, receives 0 [1, 0, 1, 2], receives 0 [1, 0, 0, 0, 0, 0], receives 0 [97], sends 0 1,
    receives 0 [1, 0, 1, 1], receives 0 [1, 0], receives 0 [97], sends 0 5]

/- The value is never sent, and the entry stays locked. -/
theorem empty_value_hangs : ∃ s c, Server.Reachable ByteArea.decodeLE 64 (fun _ _ => 0) s ∧
    s.connections 0 = some c ∧ c.state = .sendingBody ∧ ¬ c.HasBytes ∧
      c.flags.lockAcquired = true ∧ locks s.world.memory (ringPointer 0) = 1 ∧
      ∀ socket w, socket.failed = false →
        connectionProc serverServices socket c w = .ok ⟨.noTransfer, c, w, []⟩ := by
  have hrun : (run 1 readsEmpty smallServer).Gives fun s => ∃ c ∈ s.connections 0,
      c.state = .sendingBody ∧ c.remainingBytes = 0 ∧ c.flags.lockAcquired = true ∧
        locks s.world.memory (ringPointer 0) = 1 := by
    decide +kernel
  obtain ⟨s, hs, c, hc, hstate, hzero, hlocked, hlocks⟩ := hrun
  have hsending : c.state.sending = true := by
    rw [hstate]
    rfl
  refine ⟨s, c, run_reachable .opened hs, hc, hstate, fun hbytes => ?_, hlocked, hlocks,
    fun socket w hf => connectionProc_stuck (Or.inr hsending) hzero hf w⟩
  have hpos := hbytes (Or.inr hsending)
  omega

end CacheServer
