import CacheServer.Scheduler.Unblocking

/-!
# Rounds of the server

`Server.WellFormed` is the scheduler's invariant. One round keeps it exactly
when `KeepsSchedule` holds of what connection_proc and handle_lock_release_event
did in it.
-/

namespace CacheServer

namespace Server

/-- The active list holds `xs`, all open and none blocked. -/
structure Ready (s : Server) (xs : List Nat) : Prop where
  active : s.Active xs
  ready : ∀ i ∈ xs, ∃ c, s.connections i = some c ∧ c.state.awaits = none

structure Scheduled (s : Server) (xs : List Nat) : Prop extends s.Ready xs where
  idle : s.currentConnection = none ↔ xs = []
  current : ∀ i, s.currentConnection = some i → i ∈ xs

instance (s : Server) (xs : List Nat) : Decidable (s.Active xs) :=
  inferInstanceAs (Decidable (Linked ..))

instance (s : Server) (xs : List Nat) : Decidable (s.Scheduled xs) :=
  decidable_of_iff ((s.Active xs ∧ ∀ i ∈ xs, ∃ c ∈ s.connections i, c.state.awaits = none) ∧
      (s.currentConnection = none ↔ xs = []) ∧ ∀ i ∈ s.currentConnection, i ∈ xs)
    ⟨fun ⟨⟨ha, hr⟩, hi, hc⟩ => ⟨⟨ha, hr⟩, hi, hc⟩, fun ⟨⟨ha, hr⟩, hi, hc⟩ => ⟨⟨ha, hr⟩, hi, hc⟩⟩

def WellFormed (s : Server) : Prop := ∃ xs, s.Scheduled xs

/-- Every connection is one that connection.c produces, and the next one is new. -/
structure Sound (s : Server) : Prop where
  fresh : ∀ i, s.accepted ≤ i → s.connections i = none
  valid : ∀ i c, s.connections i = some c → c.Valid

/-- The list holds `i` and no other connection. -/
def Alone (s : Server) (i : Nat) : Prop := s.list.head = some i ∧ s.list.tail = some i

/-- The server after a call of connection.c on connection `i`. -/
def after (s : Server) (i : Nat) (o : Outcome System) : Server :=
  { s.setConnection i (some o.connection) with world := o.world }

section
variable {s s' : Server} {i : Nat} {xs ys a b : List Nat} {c : Connection}

theorem call_of (hc : s.connections i = some c) {f : Connection → World System →
    Except Fault (Outcome System)} {o : Outcome System} (h : f c s.world = .ok o) :
    s.call i f = .ok (o.result, s.after i o) := by
  unfold call deref
  rw [hc]
  change f c s.world >>= _ = _
  rw [h]
  rfl

theorem call_inv {f : Connection → World System → Except Fault (Outcome System)}
    {r : ConnectionResult} (h : s.call i f = .ok (r, s')) :
    ∃ c o, s.connections i = some c ∧ f c s.world = .ok o ∧ r = o.result ∧ s' = s.after i o := by
  unfold call deref at h
  cases hc : s.connections i with
  | none => simp [hc, bind, Except.bind] at h
  | some c =>
    rw [hc] at h
    change f c s.world >>= _ = _ at h
    obtain ⟨o, ho, h⟩ := Except.bind_eq_ok_iff.mp h
    cases h
    exact ⟨c, o, rfl, ho, rfl, rfl⟩

theorem after_connections (o : Outcome System) (j : Nat) :
    (s.after i o).connections j = if j = i then some o.connection else s.connections j := rfl

theorem Ready.after_other (h : s.Ready xs) (hi : i ∉ xs) (o : Outcome System) :
    (s.after i o).Ready xs := by
  refine ⟨h.active, fun j hj => ?_⟩
  have hji : j ≠ i := fun he => hi (he ▸ hj)
  rw [after_connections, if_neg hji]
  exact h.ready j hj

theorem Ready.after_self (h : s.Ready xs) {o : Outcome System} (ho : o.connection.state.awaits = none) :
    (s.after i o).Ready xs := by
  refine ⟨h.active, fun j hj => ?_⟩
  rw [after_connections]
  by_cases hji : j = i
  · rw [if_pos hji]
    exact ⟨_, rfl, ho⟩
  · rw [if_neg hji]
    exact h.ready j hj

theorem Ready.not_mem (h : s.Ready xs) (hc : s.connections i = some c) {t : BlockType}
    (ht : c.state.awaits = some t) : i ∉ xs := by
  intro hi
  obtain ⟨c', hc', hn⟩ := h.ready i hi
  rw [hc] at hc'
  cases hc'
  rw [ht] at hn
  cases hn

theorem Ready.append (h : s.Ready xs) (hne : xs ≠ []) (hi : i ∉ xs)
    (hc : ∃ c, s.connections i = some c ∧ c.state.awaits = none) (ha : s.append i = .ok s') :
    s'.Ready (xs ++ [i]) ∧ s'.connections = s.connections ∧ s'.accepted = s.accepted ∧
      s'.currentConnection = s.currentConnection := by
  obtain ⟨links, list, happend, hchain, -⟩ := append_active h.active hi fun he => absurd he hne
  rw [happend] at ha
  cases ha
  refine ⟨⟨hchain, fun j hj => ?_⟩, rfl, rfl, rfl⟩
  rcases List.mem_append.mp hj with hj | hj
  · exact h.ready j hj
  · rw [List.mem_singleton.mp hj]
    exact hc

theorem popBlocked_inv {e : Option Pointer} {t : BlockType} {u : Option Nat}
    (h : Returns (fun n => s.popBlocked n e t) (u, s')) : ∃ b, s' = { s with blocked := b } := by
  obtain ⟨n, h⟩ := h
  unfold popBlocked at h
  obtain ⟨⟨u', b⟩, -, h⟩ := Except.bind_eq_ok_iff.mp h
  cases h
  exact ⟨b, rfl⟩

/-- What waking connections leaves of a server whose current connection is in the list. -/
structure Woken (s : Server) (current : Nat) (xs : List Nat) (s' : Server) : Prop where
  ready : s'.Ready xs
  same : s'.connections current = s.connections current
  cursor : s'.currentConnection = s.currentConnection

theorem Ready.wakes {current : Nat} {t : BlockType} {is : List Nat} {refusal : Option BlockType}
    (hw : Wakes current t s is s' refusal) (h : s.Ready xs) (hcur : current ∈ xs) :
    s.Woken current (xs ++ is) s' := by
  induction hw generalizing xs with
  | done deref pop =>
    obtain ⟨b, rfl⟩ := popBlocked_inv pop
    rw [List.append_nil]
    exact ⟨⟨h.active, h.ready⟩, rfl, rfl⟩
  | @refused s₀ s₁ s' c i result deref pop retry failed =>
    obtain ⟨b, rfl⟩ := popBlocked_inv pop
    obtain ⟨c, o, hc, ho, rfl, rfl⟩ := call_inv retry
    have hi := h.not_mem hc (unblockFunc_awaits ho).1
    have hne : current ≠ i := fun he => hi (he ▸ hcur)
    rw [List.append_nil]
    exact ⟨Ready.after_other (s := { s₀ with blocked := b }) ⟨h.active, h.ready⟩ hi o,
      if_neg hne, rfl⟩
  | @woken s₀ s₁ s₂ s₃ s' c i is refusal deref pop retry append rest ih =>
    obtain ⟨b, rfl⟩ := popBlocked_inv pop
    obtain ⟨c, o, hc, ho, hresult, rfl⟩ := call_inv retry
    obtain ⟨hwait, hawaits⟩ := unblockFunc_awaits ho
    have hi := h.not_mem hc hwait
    have hne : current ≠ i := fun he => hi (he ▸ hcur)
    have hready : ({ s₀ with blocked := b }.after i o).Ready xs :=
      Ready.after_other (s := { s₀ with blocked := b }) ⟨h.active, h.ready⟩ hi o
    have hfree : o.connection.state.awaits = none := by
      rw [hawaits, ← hresult]
      rfl
    obtain ⟨hready', hconn, -, hcursor⟩ := hready.append (List.ne_nil_of_mem hcur) hi
      ⟨_, by rw [after_connections, if_pos rfl], hfree⟩ append
    obtain ⟨hready'', hsame, hcursor'⟩ := ih hready' (List.mem_append_left _ hcur)
    rw [List.append_assoc] at hready''
    refine ⟨hready'', hsame.trans ?_, hcursor'.trans hcursor⟩
    rw [hconn, after_connections, if_neg hne]

theorem Ready.handles {current : Nat} {is : List Nat} {refusal : Option BlockType}
    (hw : Handles current s is s' refusal) (h : s.Ready xs) (hcur : current ∈ xs) :
    s.Woken current (xs ++ is) s' := by
  cases hw with
  | quiet deref event =>
    rw [List.append_nil]
    exact ⟨h, rfl, rfl⟩
  | unblocks type deref event wakes => exact h.wakes wakes hcur

/-- Without an event nothing is woken. -/
theorem handles_quiet {current : Nat} {is : List Nat} {refusal : Option BlockType}
    (hw : Handles current s is s' refusal) (hc : s.connections current = some c)
    (he : c.lockReleaseEvent = .none) : is = [] ∧ s' = s ∧ refusal = none := by
  cases hw with
  | quiet deref event => exact ⟨rfl, rfl, rfl⟩
  | unblocks type deref event wakes =>
    rw [hc] at deref
    cases deref
    rw [he] at event
    cases type <;> cases event

/-! ### The next connection -/

theorem exists_head (h : s.Active (a ++ i :: b)) : ∃ j, s.list.head = some j ∧ j ∈ a ++ i :: b := by
  have hhead := h.head
  cases hj : s.list.head with
  | none => exact absurd (h.eq_nil_iff.mpr hj) (by simp)
  | some j =>
    rw [hj] at hhead
    exact ⟨j, rfl, List.mem_of_mem_head? hhead.symm⟩

theorem alone_iff_of_active (h : s.Active (a ++ i :: b)) : s.Alone i ↔ a = [] ∧ b = [] := by
  have hnodup := List.nodup_append.mp h.nodup
  constructor
  · rintro ⟨hhead, htail⟩
    constructor
    · cases a with
      | nil => rfl
      | cons x a =>
        rw [Linked.head h] at hhead
        have hx : x = i := Option.some.inj hhead
        exact absurd hx (hnodup.2.2 x (by simp) i (by simp))
    · rcases List.eq_nil_or_concat' b with rfl | ⟨b, z, rfl⟩
      · rfl
      · have hz : z = i := by
          have := h.tail
          rw [htail, ← List.cons_append, ← List.append_assoc, List.getLast?_concat] at this
          exact (Option.some.inj this).symm
        exact absurd hz fun he => (List.nodup_cons.mp hnodup.2.1).1 (by simp [he])
  · rintro ⟨rfl, rfl⟩
    exact ⟨h.head, h.tail⟩

/-- `get_next_connection` stays at `i` only if the list holds nothing else. -/
theorem getNextConnection_spec (h : s.Active (a ++ i :: b)) :
    ∃ j, getNextConnection s i = some j ∧ ((j = i ∧ a = [] ∧ b = []) ∨ j ∈ a ++ b) := by
  have hnext : s.links.next i = b.head? := h.next_eq
  unfold getNextConnection
  rw [hnext]
  cases b with
  | cons y b => exact ⟨y, rfl, Or.inr (by simp)⟩
  | nil =>
    cases a with
    | nil => exact ⟨i, h.head, Or.inl ⟨rfl, rfl, rfl⟩⟩
    | cons x a => exact ⟨x, h.head, Or.inr (by simp)⟩

end

/-! ### The switch over the result -/

section
variable {s s' : Server} {current j n : Nat} {next : Option Nat} {is a b : List Nat}
  {result : ConnectionResult}

theorem scheduled_of_mem {xs : List Nat} (h : s.Ready xs) (hj : j ∈ xs) :
    ({ s with currentConnection := some j } : Server).WellFormed := by
  refine ⟨xs, ⟨h.active, h.ready⟩, ⟨fun he => (by cases he), fun he => ?_⟩, fun i hi => ?_⟩
  · rw [he] at hj
    cases hj
  · cases hi
    exact hj

theorem Ready.remove (h : s.Ready (a ++ current :: b)) :
    ∃ links list, s.remove current = .ok { s with links, list } ∧
      ({ s with links, list } : Server).Ready (a ++ b) ∧ s.links.Outside links (a ++ b) := by
  obtain ⟨links, list, hremove, hchain, hout⟩ := remove_active h.active
  refine ⟨links, list, hremove, ⟨hchain, fun i hi => h.ready i ?_⟩, hout⟩
  rcases List.mem_append.mp hi with hi | hi
  · exact List.mem_append_left _ hi
  · exact List.mem_append_right _ (List.mem_cons_of_mem _ hi)

/-- Taken off the list and put at its end. -/
theorem Ready.requeue (h : s.Ready (a ++ current :: b)) :
    ∃ links list, (∀ n, handleResult n current next .newRequest s =
        .ok { s with links, list, currentConnection := next }) ∧
      links.Chain list (a ++ b ++ [current]) := by
  obtain ⟨links, list, hremove, hready, hout⟩ := h.remove
  have hnodup := List.nodup_append.mp h.active.nodup
  have hcur : current ∉ a ++ b := by
    intro hmem
    rcases List.mem_append.mp hmem with hmem | hmem
    · exact hnodup.2.2 current hmem current (by simp) rfl
    · exact (List.nodup_cons.mp hnodup.2.1).1 hmem
  have hfree : a ++ b = [] → links.detached current := by
    intro he
    obtain ⟨rfl, rfl⟩ := List.append_eq_nil_iff.mp he
    have hp : s.links.previous current = none := Linked.previous_eq h.active
    have hn : s.links.next current = none := Linked.next_eq h.active
    obtain ⟨hp', hn'⟩ := hout current hcur
    exact ⟨hp'.trans hp, hn'.trans hn⟩
  obtain ⟨links', list', happend, hchain, -⟩ := append_active hready.active hcur hfree
  refine ⟨links', list', fun n => ?_, hchain⟩
  unfold handleResult
  rw [hremove]
  change Server.append _ current >>= _ = _
  rw [happend]
  rfl

theorem handleResult_newRequest (h : s.Ready (a ++ current :: b)) (hj : j ∈ a ++ current :: b) :
    ∃ s', (∀ n, handleResult n current (some j) .newRequest s = .ok s') ∧ s'.WellFormed := by
  obtain ⟨links, list, hrequeue, hchain⟩ := h.requeue
  refine ⟨_, hrequeue, @scheduled_of_mem { s with links, list } _ (a ++ b ++ [current])
    ⟨hchain, fun i hi => h.ready i ?_⟩ ?_⟩
  · simp only [List.mem_append, List.mem_cons, List.not_mem_nil, or_false] at hi ⊢
    tauto
  · simp only [List.mem_append, List.mem_cons, List.not_mem_nil, or_false] at hj ⊢
    tauto

theorem handleResult_disconnect (h : s.Ready (a ++ current :: b)) :
    ∃ s₁ : Server, (∀ n, handleResult n current next .disconnect s =
        .ok { s₁ with currentConnection := if next = some current then none else next }) ∧
      s₁.Ready (a ++ b) := by
  obtain ⟨links, list, hremove, hready, -⟩ := h.remove
  refine ⟨({ s with links, list } : Server).setConnection current none, fun n => ?_,
    hready.active, fun i hi => ?_⟩
  · unfold handleResult
    rw [hremove]
    rfl
  · have hne : i ≠ current := by
      have hnodup := List.nodup_append.mp h.active.nodup
      rintro rfl
      rcases List.mem_append.mp hi with hi | hi
      · exact hnodup.2.2 i hi i (by simp) rfl
      · exact (List.nodup_cons.mp hnodup.2.1).1 hi
    obtain ⟨c, hc, hs⟩ := hready.ready i hi
    exact ⟨c, (if_neg hne).trans hc, hs⟩

/-- The switch keeps the schedule unless the round blocked the connection, or closed the
only active one after it woke others. -/
theorem handleResult_keeps (h : s.Ready (a ++ current :: b ++ is))
    (hnext : next = some j ∧ ((j = current ∧ a = [] ∧ b = []) ∨ j ∈ a ++ b))
    (hr : result.blocks = none) (hd : result = .disconnect → a = [] ∧ b = [] → is = []) :
    ∃ s', (∀ n, handleResult n current next result s = .ok s') ∧ s'.WellFormed := by
  obtain ⟨rfl, hj⟩ := hnext
  have hmem : j ∈ a ++ current :: (b ++ is) := by
    simp only [List.mem_append, List.mem_cons] at hj ⊢
    tauto
  rw [List.append_assoc, List.cons_append] at h
  cases result with
  | success =>
    obtain ⟨x, hx, hxmem⟩ := exists_head h.active
    refine ⟨_, fun n => rfl, ?_⟩
    rw [hx]
    exact scheduled_of_mem h hxmem
  | noTransfer => exact ⟨_, fun n => rfl, scheduled_of_mem h hmem⟩
  | newRequest => exact handleResult_newRequest h hmem
  | disconnect =>
    obtain ⟨s₁, hs₁, hready⟩ := @handleResult_disconnect s current (some j) a (b ++ is) h
    refine ⟨_, hs₁, ?_⟩
    rcases hj with ⟨rfl, rfl, rfl⟩ | hj
    · cases hd rfl ⟨rfl, rfl⟩
      rw [if_pos rfl]
      exact ⟨[], ⟨hready.active, hready.ready⟩, by simp, fun i hi => by cases hi⟩
    · have hne : j ≠ current := by
        have hnodup := List.nodup_append.mp h.active.nodup
        rintro rfl
        rcases List.mem_append.mp hj with hj | hj
        · exact hnodup.2.2 j hj j (by simp) rfl
        · exact (List.nodup_cons.mp hnodup.2.1).1 (List.mem_append_left _ hj)
      rw [if_neg fun he => hne (Option.some.inj he)]
      refine scheduled_of_mem hready ?_
      rw [← List.append_assoc]
      exact List.mem_append_left _ hj
  | readBlocked => cases hr
  | writeBlocked => cases hr

theorem remove_frame (h : s.remove current = .ok s') :
    ∃ links list, s' = { s with links, list } := by
  unfold remove at h
  obtain ⟨⟨links, list⟩, -, h⟩ := Except.bind_eq_ok_iff.mp h
  cases h
  exact ⟨links, list, rfl⟩

/-- A blocked connection stays the current one. -/
theorem handleResult_blocked {c : Connection} {t : BlockType} (hr : result.blocks = some t)
    (hcur : s.currentConnection = some current) (hc : s.connections current = some c)
    (ha : c.state.awaits = some t) (h : handleResult n current next result s = .ok s') :
    ¬ s'.WellFormed := by
  have hframe : s'.currentConnection = some current ∧ s'.connections current = some c := by
    have hadd : ∀ t, (s.remove current >>= fun s => s.addBlocked n current t) = .ok s' →
        s'.currentConnection = some current ∧ s'.connections current = some c := by
      intro t h
      obtain ⟨s₁, hremove, h⟩ := Except.bind_eq_ok_iff.mp h
      obtain ⟨links, list, rfl⟩ := remove_frame hremove
      obtain ⟨c', -, -, rfl⟩ := addBlocked_returns.mp ⟨n, h⟩
      exact ⟨hcur, hc⟩
    cases result with
    | readBlocked | writeBlocked => exact hadd _ h
    | _ => cases hr
  rintro ⟨xs, hready, -, hmem⟩
  obtain ⟨c', hc', hn⟩ := hready.ready current (hmem current hframe.1)
  rw [hframe.2] at hc'
  cases hc'
  rw [ha] at hn
  cases hn

/-- The only active connection closed after it woke others: they are left without a cursor. -/
theorem handleResult_lonely (h : s.Ready (current :: is)) (hne : is ≠ [])
    (hs : handleResult n current (some current) .disconnect s = .ok s') : ¬ s'.WellFormed := by
  obtain ⟨s₁, hs₁, hready⟩ := @handleResult_disconnect s current (some current) [] is h
  rw [hs₁ n] at hs
  cases hs
  rintro ⟨xs, hready', hidle, -⟩
  have hxs : xs = [] := hidle.mp (if_pos rfl)
  have hhead := (Linked.eq_nil_iff hready'.active).mp hxs
  exact hne ((Linked.eq_nil_iff hready.active).mpr hhead)

/-- After a failed retry the links of the current connection lead nowhere. -/
theorem handleResult_requeued (h : s.Ready (a ++ current :: b ++ is)) (blocked : BlockedConnections)
    (hnext : next = some j ∧ ((j = current ∧ a = [] ∧ b = []) ∨ j ∈ a ++ b)) :
    (∃ s', Returns (fun n => handleResult n current next .disconnect
        { s with links := s.links.detach current, blocked }) s' ∧ s'.WellFormed) ↔
      (a = [] ∧ b = []) ∧ is = [] := by
  have hactive : s.Active (a ++ current :: (b ++ is)) := by
    have := h.active
    rwa [List.append_assoc, List.cons_append] at this
  have hremove : connectionListRemove current (s.links.detach current) s.list = _ :=
    connectionListRemove_detached (s.links.detach_detached current)
  constructor
  · rintro ⟨s', ⟨n, hn⟩, -⟩
    unfold handleResult at hn
    obtain ⟨s₁, hs₁, -⟩ := Except.bind_eq_ok_iff.mp hn
    unfold remove at hs₁
    obtain ⟨r, hr, -⟩ := Except.bind_eq_ok_iff.mp hs₁
    rw [hremove] at hr
    split at hr
    · rename_i halone
      obtain ⟨ha, hb⟩ := (alone_iff_of_active hactive).mp ⟨halone.2, halone.1⟩
      obtain ⟨hb, his⟩ := List.append_eq_nil_iff.mp hb
      exact ⟨⟨ha, hb⟩, his⟩
    · cases hr
  · rintro ⟨⟨rfl, rfl⟩, rfl⟩
    obtain ⟨hhead, htail⟩ := (alone_iff_of_active hactive).mpr ⟨rfl, rfl⟩
    obtain ⟨rfl, ⟨rfl, -⟩ | hj⟩ := hnext
    · rw [if_pos ⟨htail, hhead⟩] at hremove
      refine ⟨{ s.setConnection j none with
          links := s.links.detach j
          list := ⟨none, none, (s.list.count + (2 ^ 16 - 1)) % 2 ^ 16⟩
          blocked
          currentConnection := none }, ⟨0, ?_⟩, [], ⟨?_, ?_⟩, ?_, ?_⟩
      · unfold handleResult remove
        rw [hremove]
        simp [bind, Except.bind, setConnection]
      · exact Linked.nil
      · exact fun i hi => by cases hi
      · exact ⟨fun _ => rfl, fun _ => rfl⟩
      · exact fun i hi => by cases hi
    · cases hj

theorem handleResult_steady : Steady fun n => handleResult n current next result s := by
  cases result with
  | readBlocked | writeBlocked => exact Steady.bind (Steady.const _) fun _ => addBlocked_steady
  | _ => exact Steady.const _

end

/-! ### Rounds -/

/-- The server once the kernel, the clock and malloc have their answers for the round. -/
def answered (s : Server) (env : Environment) : Server :=
  { s with world := setAnswers s.world env.answers }

/-- A round that serves the current connection, up to the switch over the result `o.result`:
the connections it woke, the server then, and the type of the retry that failed, if any. -/
structure Serves (s : Server) (env : Environment) (current : Nat) (o : Outcome System)
    (woken : List Nat) (s₁ : Server) (refusal : Option BlockType) : Prop where
  cursor : s.currentConnection = some current
  due : acceptDue env s = false
  proc : ∃ c, s.connections current = some c ∧
    connectionProc serverServices env.socket c (s.answered env).world = .ok o
  handles : Handles current ((s.answered env).after current o) woken s₁ refusal

/-- What a round must not do: block, close the only active connection after waking others, or
meet a failed retry (harmless to the list only in one degenerate case). -/
structure KeepsSchedule (s : Server) (current : Nat) (result : ConnectionResult) (woken : List Nat)
    (s₁ : Server) (refusal : Option BlockType) : Prop where
  unblocked : result.blocks = none
  alone : result = .disconnect → s.Alone current → woken = []
  refused : refusal ≠ none → s.Alone current ∧ woken = [] ∧ s₁.blocked.head = none ∧
    s₁.world.system.answers.queueMallocFails = false

section
variable {s s₁ s' : Server} {env : Environment} {current : Nat} {o : Outcome System}
  {woken : List Nat} {refusal : Option BlockType}

theorem cacheServerProc_eq (n : Nat) :
    cacheServerProc n env s = match s.currentConnection with
      | none => acceptConnection env (s.answered env)
      | some current =>
        if acceptDue env s then acceptConnection env (s.answered env)
        else (s.answered env).call current (connectionProc serverServices env.socket) >>= fun r =>
          handleLockReleaseEvent n current r.2 >>= fun s₂ =>
            handleResult n current (getNextConnection s current) r.1 s₂ := rfl

theorem cacheServerProc_returns (h : s.Serves env current o woken s₁ refusal) :
    Returns (fun n => cacheServerProc n env s) s' ↔ ∃ s₂, Requeues current refusal s₁ s₂ ∧
      Returns (fun n => handleResult n current (getNextConnection s current) o.result s₂) s' := by
  obtain ⟨c, hc, ho⟩ := h.proc
  have hcall := call_of (s := s.answered env) hc ho
  have heq : ∀ n, cacheServerProc n env s =
      handleLockReleaseEvent n current ((s.answered env).after current o) >>= fun s₂ =>
        handleResult n current (getNextConnection s current) o.result s₂ := by
    intro n
    rw [cacheServerProc_eq, h.cursor]
    simp only [h.due, hcall, Bool.false_eq_true, if_false]
    rfl
  simp only [heq]
  rw [Returns.bind_iff handleLockReleaseEvent_steady fun _ => handleResult_steady]
  exact exists_congr fun s₂ => and_congr_left' h.handles.returns

/-- Only a connection that is closed can hold an event. -/
theorem Serves.quiet (hs : s.Sound) (h : s.Serves env current o woken s₁ refusal)
    (hd : o.result ≠ .disconnect) :
    woken = [] ∧ s₁ = (s.answered env).after current o ∧ refusal = none := by
  obtain ⟨c, hc, ho⟩ := h.proc
  have hvalid := connectionProc_valid (hs.valid current c hc) ho hd
  exact handles_quiet h.handles (if_pos rfl) hvalid.event

theorem serves_wellFormed_iff (hs : s.Sound) (hw : s.WellFormed)
    (h : s.Serves env current o woken s₁ refusal) :
    (∃ s', Returns (fun n => cacheServerProc n env s) s' ∧ s'.WellFormed) ↔
      s.KeepsSchedule current o.result woken s₁ refusal := by
  obtain ⟨xs, hready, hidle, hcur⟩ := hw
  obtain ⟨a, b, rfl⟩ := List.append_of_mem (hcur current h.cursor)
  obtain ⟨c, hc, ho⟩ := h.proc
  have hawaits : o.connection.state.awaits = o.result.blocks := connectionProc_awaits ho
  obtain ⟨j, hnext, hj⟩ := getNextConnection_spec hready.active
  have halone := alone_iff_of_active hready.active
  simp only [cacheServerProc_returns h]
  cases hblocks : o.result.blocks with
  | some t =>
    have hd : o.result ≠ .disconnect := fun hd => by rw [hd] at hblocks; cases hblocks
    obtain ⟨rfl, rfl, rfl⟩ := h.quiet hs hd
    refine iff_of_false ?_ fun hk => by rw [hk.unblocked] at hblocks; cases hblocks
    rintro ⟨s', ⟨s₂, rfl, n, hn⟩, hwf⟩
    exact handleResult_blocked (s := (s.answered env).after current o) hblocks h.cursor (if_pos rfl)
      (hawaits.trans hblocks) hn hwf
  | none =>
    have hready₁ : ((s.answered env).after current o).Ready (a ++ current :: b) :=
      Ready.after_self (s := s.answered env) ⟨hready.active, hready.ready⟩ (hawaits.trans hblocks)
    have hwoken := hready₁.handles h.handles (by simp)
    cases refusal with
    | none =>
      have hkeeps : s.KeepsSchedule current o.result woken s₁ none ↔
          (o.result = .disconnect → a = [] ∧ b = [] → woken = []) := by
        rw [← halone]
        exact ⟨fun hk => hk.alone, fun hd => ⟨hblocks, hd, fun hne => absurd rfl hne⟩⟩
      rw [hkeeps]
      constructor
      · rintro ⟨s', ⟨s₂, rfl, n, hn⟩, hwf⟩ hd ⟨rfl, rfl⟩
        by_contra hne
        have hjc : j = current := by
          rcases hj with ⟨hjc, -⟩ | hj
          · exact hjc
          · cases hj
        rw [hnext, hd, hjc] at hn
        exact handleResult_lonely hwoken.ready hne hn hwf
      · intro hd
        obtain ⟨s', hs', hwf⟩ := handleResult_keeps hwoken.ready ⟨hnext, hj⟩ hblocks hd
        exact ⟨s', ⟨s₁, rfl, 0, hs' 0⟩, hwf⟩
    | some t =>
      have hd : o.result = .disconnect := by
        by_contra hd
        obtain ⟨-, -, hrefusal⟩ := h.quiet hs hd
        cases hrefusal
      have hadd : ∀ s₂, Requeues current (some t) s₁ s₂ ↔
          ∃ c, s₁.connections current = some c ∧
            (s₁.blocked.head = none ∧ s₁.world.system.answers.queueMallocFails = false) ∧
            s₂ = { s₁ with links := s₁.links.detach current,
                           blocked := s₁.blocked.push current c.entryHeader t } :=
        fun s₂ => addBlocked_returns
      have hsame : s₁.connections current = some o.connection := hwoken.same.trans (if_pos rfl)
      constructor
      · rintro ⟨s', ⟨s₂, hs₂, hn⟩, hwf⟩
        obtain ⟨c', -, hhead, rfl⟩ := (hadd s₂).mp hs₂
        rw [hd] at hn
        obtain ⟨hlist, hwoke⟩ := (handleResult_requeued hwoken.ready _ ⟨hnext, hj⟩).mp ⟨s', hn, hwf⟩
        exact ⟨hblocks, fun _ _ => hwoke, fun _ => ⟨halone.mpr hlist, hwoke, hhead⟩⟩
      · intro hk
        obtain ⟨hlist, hwoke, hhead⟩ := hk.refused (by simp)
        obtain ⟨s', hn, hwf⟩ := (handleResult_requeued hwoken.ready
          (s₁.blocked.push current o.connection.entryHeader t) ⟨hnext, hj⟩).mpr
            ⟨halone.mp hlist, hwoke⟩
        rw [hd]
        exact ⟨s', ⟨_, (hadd _).mpr ⟨_, hsame, hhead, rfl⟩, hn⟩, hwf⟩

/-! ### Accepting -/

/-- The server that `accept_connection` appends the new connection to. -/
def opened (s : Server) (timestamp : Nat) (c : Connection) : Server :=
  { s.setConnection s.accepted (some c) with
    accepted := s.accepted + 1
    links := s.links.detach s.accepted
    lastAcceptTimestamp := timestamp }

theorem acceptConnection_opened {fileDescriptor : Nat} {header arguments : ByteArea}
    (h : env.accept = .opened fileDescriptor header arguments) :
    acceptConnection env s =
      (s.opened env.answers.timestamp (connectionInit fileDescriptor header arguments)).append
        s.accepted >>= fun s' => .ok (if s'.currentConnection = none
          then { s' with currentConnection := some s.accepted } else s') := by
  unfold acceptConnection
  rw [h]
  rfl

theorem acceptConnection_idle (h : env.accept = .none ∨ env.accept = .refused) :
    acceptConnection env s = .ok { s with lastAcceptTimestamp := env.answers.timestamp } := by
  unfold acceptConnection
  rcases h with h | h
  · rw [h]
  · rw [h]

theorem Ready.fresh {xs : List Nat} (h : s.Ready xs) (hs : s.Sound) : s.accepted ∉ xs := by
  intro hi
  obtain ⟨c, hc, -⟩ := h.ready _ hi
  rw [hs.fresh _ (Nat.le_refl _)] at hc
  cases hc

/-- The new connection is put at the end of the list. -/
theorem Ready.opened {xs : List Nat} (h : s.Ready xs) (hs : s.Sound) (timestamp : Nat) (c : Connection) :
    ∃ links list, (s.opened timestamp c).append s.accepted =
        .ok { s.opened timestamp c with links, list } ∧ links.Chain list (xs ++ [s.accepted]) := by
  have hne : ∀ x ∈ xs, x ≠ s.accepted := fun x hx he => h.fresh hs (he ▸ hx)
  have hactive : (s.opened timestamp c).Active xs :=
    Linked.congr h.active (fun x hx => if_neg (hne x hx)) fun x hx => if_neg (hne x hx)
  obtain ⟨links, list, happend, hchain, -⟩ := append_active hactive (h.fresh hs)
    fun _ => s.links.detach_detached s.accepted
  exact ⟨links, list, happend, hchain⟩

theorem acceptConnection_wellFormed (hs : s.Sound) (hw : s.WellFormed) :
    ∃ s', acceptConnection env s = .ok s' ∧ s'.WellFormed := by
  obtain ⟨xs, hready, hidle, hcur⟩ := hw
  cases haccept : env.accept with
  | none =>
    exact ⟨_, acceptConnection_idle (Or.inl haccept), xs, ⟨hready.active, hready.ready⟩, hidle, hcur⟩
  | refused =>
    exact ⟨_, acceptConnection_idle (Or.inr haccept), xs, ⟨hready.active, hready.ready⟩, hidle, hcur⟩
  | opened fileDescriptor header arguments =>
    let s₁ := s.opened env.answers.timestamp (connectionInit fileDescriptor header arguments)
    obtain ⟨links, list, happend, hchain⟩ := hready.opened hs env.answers.timestamp
      (connectionInit fileDescriptor header arguments)
    have hready' : ({ s₁ with links, list } : Server).Ready (xs ++ [s.accepted]) := by
      refine ⟨hchain, fun i hmem => ?_⟩
      rcases List.mem_append.mp hmem with hmem | hmem
      · have hne : i ≠ s.accepted := fun he => hready.fresh hs (he ▸ hmem)
        obtain ⟨c, hc, hn⟩ := hready.ready i hmem
        exact ⟨c, (if_neg hne).trans hc, hn⟩
      · rw [List.mem_singleton.mp hmem]
        exact ⟨_, if_pos rfl, rfl⟩
    rw [acceptConnection_opened haccept]
    change ∃ s', s₁.append s.accepted >>= _ = .ok s' ∧ _
    rw [happend]
    refine ⟨_, rfl, ?_⟩
    change WellFormed (if s.currentConnection = none then _ else _)
    cases hc : s.currentConnection with
    | none =>
      rw [if_pos rfl]
      exact scheduled_of_mem hready' (by simp)
    | some current =>
      rw [if_neg (by simp)]
      have hkeep := scheduled_of_mem hready' (j := current)
        (List.mem_append_left _ (hcur current hc))
      have hsame : s₁.currentConnection = some current := hc
      rwa [← hsame] at hkeep

end

end Server

end CacheServer
