import CacheServer.Model.Server
import CacheServer.Wire.Phases

/-!
# Connections that are blocked

The result of a call of connection.c reports exactly the block that the
connection is left waiting for.
-/

namespace CacheServer

def ConnectionState.awaits : ConnectionState → Option BlockType
  | .awaitingReadUnblock => some .read
  | .awaitingWriteUnblock => some .write
  | _ => none

def ConnectionResult.blocks : ConnectionResult → Option BlockType
  | .readBlocked => some .read
  | .writeBlocked => some .write
  | _ => none

/-- The result reports exactly the block that the connection waits for. -/
def Outcome.Awaits {σ : Type} (o : Outcome σ) : Prop := o.connection.state.awaits = o.result.blocks

section
variable {σ : Type} {S : Services σ} {socket : Socket} {c : Connection} {w : World σ}
  {o : Outcome σ}

theorem awaits_of_transferring (h : c.state.receiving = true ∨ c.state.sending = true) :
    c.state.awaits = none := by
  cases hs : c.state <;> simp_all [ConnectionState.receiving, ConnectionState.sending,
    ConnectionState.awaits]

theorem Connection.Phase.transferring (h : c.Phase) (ha : c.state.awaits = none) :
    c.state.receiving = true ∨ c.state.sending = true := by
  cases h with
  | receivingHeader state | receivingArguments state | receivingBody state =>
    rw [state]
    exact Or.inl rfl
  | sendingHeader state | sendingValue state | sendingBody state =>
    rw [state]
    exact Or.inr rfl
  | awaitingWriteUnblock state | awaitingReadUnblock state =>
    rw [state] at ha
    cases ha

theorem attemptMemoryRead_awaits : (attemptMemoryRead c w).Awaits := by
  unfold attemptMemoryRead
  split
  · rfl
  · split <;> rfl

theorem attemptMemoryWrite_awaits (h : attemptMemoryWrite S c w = .ok o) : o.Awaits := by
  unfold attemptMemoryWrite at h
  split at h <;> cases h <;> rfl

theorem finishRequest_awaits (h : c.state.awaits = none) : (finishRequest c w).Awaits := by
  unfold finishRequest
  split
  · rfl
  · exact h

theorem eventReceivedHeader_awaits : (eventReceivedHeader c w).Awaits := by
  unfold eventReceivedHeader
  split
  · rfl
  · simp only
    split <;> rfl

theorem eventReceivedArguments_awaits (h : eventReceivedArguments S c w = .ok o) : o.Awaits := by
  unfold eventReceivedArguments at h
  split at h
  · split at h <;> cases h <;> rfl
  · split at h <;> cases h <;> rfl
  · exact attemptMemoryWrite_awaits h
  · cases h

theorem eventReceivedBody_awaits (h : eventReceivedBody S c w = .ok o) : o.Awaits := by
  unfold eventReceivedBody at h
  split at h
  · simp only at h
    split at h <;> cases h
    exact attemptMemoryRead_awaits
  · simp only at h
    split at h <;> cases h
    rfl
  · simp only at h
    split at h <;> cases h <;> rfl
  · cases h
  · cases h
  · cases h

theorem eventSentHeader_awaits (hs : c.state.awaits = none) (h : eventSentHeader c w = .ok o) :
    o.Awaits := by
  unfold eventSentHeader at h
  split at h
  case h_9 =>
    split at h <;> cases h
    rfl
  case h_10 => cases h
  all_goals
    cases h
    exact finishRequest_awaits hs

theorem eventSentBody_awaits (hs : c.state.awaits = none) (h : eventSentBody c w = .ok o) :
    o.Awaits := by
  unfold eventSentBody at h
  split at h <;> cases h
  exact finishRequest_awaits hs

theorem connectionEvent_awaits (h : connectionEvent S c w = .ok o) : o.Awaits := by
  unfold connectionEvent at h
  split at h
  · cases h
    exact eventReceivedHeader_awaits
  · exact eventReceivedArguments_awaits h
  · exact eventReceivedBody_awaits h
  · rename_i hs
    exact eventSentHeader_awaits (by rw [hs]; rfl) h
  · rename_i hs
    exact eventSentBody_awaits (by rw [hs]; rfl) h
  · cases h

theorem socketFailure_awaits (hs : c.state.awaits = none) (h : socketFailure S c w = .ok o) :
    o.Awaits := by
  unfold socketFailure at h
  split at h
  · cases h
  · simp only at h
    split at h
    · split at h <;> cases h
      exact hs
    · cases h
      exact hs

theorem connectionTransfer_awaits (h : connectionTransfer S socket c w = .ok o) : o.Awaits := by
  have hs : c.state.awaits = none := by
    unfold connectionTransfer at h
    cases hc : c.state <;> simp_all [ConnectionState.awaits]
  have hreturns := connectionTransfer_returns h
  cases hreturns with
  | idle => exact hs
  | failed _ failure => exact socketFailure_awaits hs failure
  | received bytes =>
    have hstate := storeReceived_state c w bytes
    exact (congrArg ConnectionState.awaits hstate).trans hs
  | sent => exact hs

theorem connectionProc_awaits (h : connectionProc S socket c w = .ok o) : o.Awaits := by
  have hreturns := connectionProc_returns h
  cases hreturns with
  | unsuccessful transfer | incomplete transfer => exact connectionTransfer_awaits transfer
  | @completed o₁ o₂ transfer success complete event =>
    exact (connectionEvent_awaits event : o₂.Awaits)

theorem unblockFunc_awaits {t : BlockType} {w : World System} {o : Outcome System}
    (h : unblockFunc t c w = .ok o) : c.state.awaits = some t ∧ o.Awaits := by
  cases t with
  | read =>
    simp only [unblockFunc, connectionUnblockRead] at h
    split at h
    · rename_i hs
      refine ⟨by rw [hs]; rfl, ?_⟩
      split at h
      · cases h
      · split at h <;> cases h <;> exact attemptMemoryRead_awaits
    · cases h
  | write =>
    simp only [unblockFunc, connectionUnblockWrite] at h
    split at h
    · rename_i hs
      exact ⟨by rw [hs]; rfl, attemptMemoryWrite_awaits h⟩
    · cases h

end

end CacheServer
