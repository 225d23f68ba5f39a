import CacheServer.Index.TableServices
import CacheServer.Sharing.Connections

/-!
# Calls of the server over the hash table

One call of connection.c, from its transfer to the end of its switch, over the
table and over an associative array with the same items. The array fails to grow
when the table does.
-/

namespace CacheServer.RobinHood
open EntryHeader

/-- A call of connection.c over the table. -/
def runOver : ConnectionCall → Connection → World TableSystem → Except Fault (Outcome TableSystem)
  | .proc socket => connectionProc tableServices socket
  | .unblockRead => connectionUnblockRead tableServices
  | .unblockWrite => connectionUnblockWrite tableServices

/-- Where the call comes to the switch of `connection_proc`, or to the retry. -/
def reachedOver (call : ConnectionCall) (c : Connection) (w : World TableSystem) :
    Option (Connection × World TableSystem) :=
  match call with
  | .proc socket =>
    match connectionTransfer tableServices socket c w with
    | .ok ⟨.success, c', w', _⟩ => if c'.remainingBytes = 0 then some (c', w') else none
    | _ => none
  | .unblockRead | .unblockWrite => some (c, w)

/-- The next put fails, as the table has to grow and cannot. -/
def growthFails (w : World TableSystem) : Bool :=
  decide (GrowthFails w.system.answers.mallocs w.system.hashmap)

section
variable {keys : Set (List UInt8)} {M : KeyMap} {h : CacheServer.Hashmap} {oom : Bool}
  {c c' : Connection} {w w' : World TableSystem} {p : Pointer} {es : List Slot} {socket : Socket}
  {call : ConnectionCall} {o : Outcome TableSystem}

/-- What a call needs where it comes to the switch. -/
structure Ready (keys : Set (List UInt8)) (h : CacheServer.Hashmap) (c : Connection)
    (w : World TableSystem) : Prop where
  indexes : Indexes w.system.hashmap h
  inactive : ∃ es, Inactive ((tableStore w).withArray h) es
  asked : c.LooksUp → ∃ M, ∀ p, c.entryHeader = some p → Asked keys M h w p
  apart : c.state = .receivingBody → c.requestType = some .put → ∀ p, c.entryHeader = some p →
    ∀ x ∈ w.system.hashmap.items, FlagOutside w.memory p x.2 ∧ FlagOutside w.memory x.2 p

theorem Unindexed.alike {table : Except Fault (Outcome TableSystem)}
    {array : Except Fault (Outcome System)} (hu : Unindexed h oom w table array)
    (hi : Indexes w.system.hashmap h) : Alike h.hash oom table array h where
  same := hu.same
  hash_eq := rfl
  indexes o ho := by
    rw [hu.kept o ho]
    exact hi

theorem connectionEvent_array (hsep : Separates indexHash keys) (hr : Ready keys h c w) :
    ∃ h', Alike h.hash (growthFails w) (connectionEvent tableServices c w)
      (connectionEvent serverServices c (withArray h (growthFails w) w)) h' := by
  unfold connectionEvent
  split
  · exact ⟨h, eventReceivedHeader_array.alike hr.indexes⟩
  · obtain ⟨es, hinactive⟩ := hr.inactive
    exact ⟨h, (eventReceivedArguments_array hinactive).alike hr.indexes⟩
  · rename_i state
    obtain ⟨M, hasked⟩ := hr.asked (Or.inl state)
    exact eventReceivedBody_array hsep hr.indexes hasked (hr.apart state) rfl
  · exact ⟨h, eventSentHeader_array.alike hr.indexes⟩
  · exact ⟨h, eventSentBody_array.alike hr.indexes⟩
  · exact ⟨h, (Unindexed.error (w := w) _).alike hr.indexes⟩

theorem connectionUnblockRead_array (hsep : Separates indexHash keys) (hr : Ready keys h c w) :
    ∃ h', Alike h.hash oom (connectionUnblockRead tableServices c w)
      (connectionUnblockRead serverServices c (withArray h oom w)) h' := by
  refine ⟨h, Unindexed.alike ?_ hr.indexes⟩
  unfold connectionUnblockRead
  simp only [withArray_memory]
  split
  · rename_i state
    split
    · exact .error _
    · rename_i p entry
      obtain ⟨M, hasked⟩ := hr.asked (Or.inr state)
      simp only [attemptMemoryRead_array]
      by_cases ha : active w.memory p = 0
      · rw [if_pos ha, if_pos ha, ← get_array oom (hasked p entry) hsep]
        exact .ok (attemptMemoryRead_table _ w)
      · rw [if_neg ha, if_neg ha]
        exact .ok (attemptMemoryRead_table _ w)
  · exact .error _

theorem connectionUnblockWrite_array (hr : Ready keys h c w) :
    ∃ h', Alike h.hash oom (connectionUnblockWrite tableServices c w)
      (connectionUnblockWrite serverServices c (withArray h oom w)) h' := by
  refine ⟨h, Unindexed.alike ?_ hr.indexes⟩
  obtain ⟨es, hinactive⟩ := hr.inactive
  unfold connectionUnblockWrite
  split
  · exact attemptMemoryWrite_array c oom hinactive
  · exact .error _

theorem Alike.after {hash : List UInt8 → Nat} {table : Except Fault (Outcome TableSystem)}
    {array : Except Fault (Outcome System)} (ha : Alike hash oom table array h) (events : List Event) :
    Alike hash oom (table.map (Outcome.after events)) (array.map (Outcome.after events)) h := by
  obtain ⟨hsame, hhash, hindexes⟩ := ha
  subst hsame
  cases table with
  | error fault => exact ⟨rfl, hhash, fun o ho => by cases ho⟩
  | ok o =>
    refine ⟨rfl, hhash, fun o' ho => ?_⟩
    cases ho
    exact hindexes o rfl

theorem connectionTransfer_system (ht : connectionTransfer tableServices socket c w = .ok o)
    (success : o.result = .success) : o.world.system = w.system := by
  have hreturns := connectionTransfer_returns ht
  cases hreturns with
  | idle => cases success
  | failed _ _ closed => cases success.symm.trans closed
  | received bytes =>
    change (storeReceived c w bytes).2.system = w.system
    unfold storeReceived
    split <;> rfl
  | sent => rfl

theorem reachedOver_of_transfer (ht : connectionTransfer tableServices socket c w = .ok o)
    (success : o.result = .success) (complete : o.connection.remainingBytes = 0) :
    reachedOver (.proc socket) c w = some (o.connection, o.world) := by
  obtain ⟨result, c₁, w₁, events⟩ := o
  cases success
  simp only [reachedOver, ht]
  exact if_pos complete

theorem reachedOver_proc (hr : reachedOver (.proc socket) c w = some (c', w')) :
    ∃ events, connectionTransfer tableServices socket c w = .ok ⟨.success, c', w', events⟩ := by
  simp only [reachedOver] at hr
  split at hr
  · rename_i events ht
    split at hr <;> cases hr
    exact ⟨events, ht⟩
  · cases hr

theorem reached_array : call.reached c (withArray h oom w) =
    (reachedOver call c w).map fun r => (r.1, withArray h oom r.2) := by
  cases call with
  | unblockRead | unblockWrite => rfl
  | proc socket =>
    have hsame := (connectionTransfer_array h oom socket c w).same
    simp only [ConnectionCall.reached, reachedOver, hsame]
    cases connectionTransfer tableServices socket c w with
    | error fault => rfl
    | ok o =>
      obtain ⟨result, c₁, w₁, events⟩ := o
      cases result with
      | success =>
        simp only [Except.map, overArray]
        split <;> rfl
      | noTransfer | newRequest | disconnect | readBlocked | writeBlocked => rfl

/-- One call over the table and over the array. -/
theorem runOver_array (hsep : Separates indexHash keys) (hi : Indexes w.system.hashmap h)
    (hr : ∀ r, reachedOver call c w = some r → Ready keys h r.1 r.2) :
    ∃ h', Alike h.hash (growthFails w) (runOver call c w)
      (call.run c (withArray h (growthFails w) w)) h' := by
  cases call with
  | unblockRead => exact connectionUnblockRead_array hsep (hr _ rfl)
  | unblockWrite => exact connectionUnblockWrite_array (hr _ rfl)
  | proc socket =>
    obtain ⟨hsame, hkept⟩ := connectionTransfer_array h (growthFails w) socket c w
    simp only [runOver, ConnectionCall.run, connectionProc, hsame]
    cases ht : connectionTransfer tableServices socket c w with
    | error fault => exact ⟨h, (Unindexed.error (w := w) fault).alike hi⟩
    | ok o =>
      have hdone : Alike h.hash (growthFails w) (.ok o) (.ok (overArray h (growthFails w) o)) h :=
        (Unindexed.ok (hkept o ht)).alike hi
      have hmap : (Except.ok o : Except Fault (Outcome TableSystem)).map (overArray h (growthFails w)) =
        .ok (overArray h (growthFails w) o) := rfl
      have hparts : (overArray h (growthFails w) o).result = o.result ∧
        (overArray h (growthFails w) o).connection = o.connection := ⟨rfl, rfl⟩
      simp only [hmap, hparts.1, hparts.2]
      by_cases hresult : o.result ≠ .success
      · simp only [if_pos hresult]
        exact ⟨h, hdone⟩
      by_cases hmore : o.connection.remainingBytes ≠ 0
      · simp only [if_neg hresult, if_pos hmore]
        exact ⟨h, hdone⟩
      have success : o.result = .success := not_not.mp hresult
      have hready := hr _ (reachedOver_of_transfer ht success (not_not.mp hmore))
      have hgrowth : growthFails o.world = growthFails w := by
        simp only [growthFails, connectionTransfer_system ht success]
      obtain ⟨h', hevent⟩ := connectionEvent_array hsep hready
      rw [hgrowth] at hevent
      simp only [if_neg hresult, if_neg hmore]
      exact ⟨h', hevent.after o.events⟩

end

end CacheServer.RobinHood
