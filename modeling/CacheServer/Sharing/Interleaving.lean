import CacheServer.Scheduler.Schedule
import CacheServer.Sharing.Connections

/-!
# The server interleaves its connections

A round of cache_server.c is a sequence of steps of its connections: an answer of
the clock, then a new connection, or a call of connection_proc and the retries
that it sets off. What holds of the connections in any order therefore holds of
those of the server.
-/

namespace CacheServer

namespace Connections

def perform : List Action → Connections → Except Fault Connections
  | [], s => .ok s
  | a :: as, s =>
    match s.step a with
    | .error fault => .error fault
    | .ok s' => perform as s'

theorem perform_append {as bs : List Action} {s s₁ s₂ : Connections} (h₁ : perform as s = .ok s₁)
    (h₂ : perform bs s₁ = .ok s₂) : perform (as ++ bs) s = .ok s₂ := by
  induction as generalizing s with
  | nil =>
    cases h₁
    exact h₂
  | cons a as ih =>
    rw [perform] at h₁
    rw [List.cons_append, perform]
    generalize s.step a = r at h₁
    cases r with
    | error fault => cases h₁
    | ok s' => exact ih h₁

theorem perform_one {a : Action} {s s' : Connections} (h : s.step a = .ok s') :
    perform [a] s = .ok s' := by
  rw [perform, h]
  rfl

theorem step_call_of {s : Connections} {i : Nat} {call : ConnectionCall} {c : Connection}
    {o : Outcome System} (hc : s.get i = some c) (h : call.run c s.world = .ok o) :
    s.step (.call i call) = .ok (s.after i o) := by
  simp only [step, hc, h]

end Connections

namespace Server

/-- The connections of a server. -/
def view (s : Server) (history : List (Nat × Event)) : Connections :=
  ⟨s.world, s.connections, s.accepted, history⟩

/-- The connections of a server that is about to close `current`. -/
def viewBut (s : Server) (current : Nat) (history : List (Nat × Event)) : Connections :=
  { s.view history with get := fun j => if j = current then none else s.connections j }

/-- What a round adds to the history, unless it closes the current connection. -/
def heard (s : Server) (env : Environment) : Option (List (Nat × Event)) :=
  match s.currentConnection with
  | none => some []
  | some current =>
    if acceptDue env s then some []
    else
      match s.connections current with
      | none => none
      | some c =>
        match connectionProc serverServices env.socket c (s.answered env).world with
        | .error _ => none
        | .ok o =>
          if o.result = .disconnect then none
          else some (o.events.map fun event => (current, event))

/-- Rounds that close no connection, with the history of their calls. -/
def recorded (fuel : Nat) : List Environment → Server → List (Nat × Event) →
    Option (Server × List (Nat × Event))
  | [], s, history => some (s, history)
  | env :: envs, s, history =>
    match cacheServerProc fuel env s, s.heard env with
    | .ok s', some events => recorded fuel envs s' (history ++ events)
    | _, _ => none

def retryCall : BlockType → ConnectionCall
  | .read => .unblockRead
  | .write => .unblockWrite

section
variable {s s' : Server} {env : Environment} {current : Nat} {history : List (Nat × Event)}
  {o : Outcome System}

theorem retryCall_run {t : BlockType} {c : Connection} {w : World System} (h : unblockFunc t c w = .ok o) :
    (retryCall t).run c w = .ok o ∧ o.result ≠ .disconnect := by
  cases t with
  | read =>
    refine ⟨h, ?_⟩
    rcases connectionUnblockRead_result h with hr | hr <;> rw [hr] <;> decide
  | write =>
    refine ⟨h, ?_⟩
    rcases connectionUnblockWrite_result h with hr | hr <;> rw [hr] <;> decide

theorem view_after (hopen : o.result ≠ .disconnect) : ((s.view history).after current o) =
    (s.after current o).view (history ++ o.events.map fun event => (current, event)) := by
  simp only [Connections.after, view, hopen, if_false]
  rfl

theorem view_after_closed (hclosed : o.result = .disconnect) : ((s.view history).after current o) =
    (s.after current o).viewBut current (history ++ o.events.map fun event => (current, event)) := by
  simp only [Connections.after, viewBut, view, hclosed, if_true]
  congr 1
  funext j
  by_cases hj : j = current
  · rw [if_pos hj, if_pos hj]
  · rw [if_neg hj, if_neg hj, after_connections, if_neg hj]

theorem viewBut_after {i : Nat} (hi : i ≠ current) (hopen : o.result ≠ .disconnect) :
    ((s.viewBut current history).after i o) =
      (s.after i o).viewBut current (history ++ o.events.map fun event => (i, event)) := by
  simp only [Connections.after, viewBut, view, hopen, if_false]
  congr 1
  funext j
  by_cases hj : j = i
  · subst hj
    rw [if_pos rfl, if_neg hi, after_connections, if_pos rfl]
  · rw [if_neg hj, after_connections, if_neg hj]

/-- The retries while `current` is about to be closed. -/
theorem unblockLoop_performs {t : BlockType} {n : Nat} (history : List (Nat × Event))
    (hcur : ∃ c, s.connections current = some c ∧ c.state.awaits = none)
    (h : unblockLoop current t n s = .ok s') : ∃ as history',
      Connections.perform as (s.viewBut current history) = .ok (s'.viewBut current history') := by
  induction n generalizing s history with
  | zero => cases h
  | succ n ih =>
    obtain ⟨c, hc, hawaits⟩ := hcur
    rw [unblockLoop_succ n hc] at h
    obtain ⟨⟨u, s₁⟩, hpop, h⟩ := Except.bind_eq_ok_iff.mp h
    obtain ⟨b, rfl⟩ := popBlocked_inv ⟨n + 1, hpop⟩
    cases u with
    | none =>
      cases h
      exact ⟨[], history, rfl⟩
    | some i =>
      obtain ⟨⟨r, s₂⟩, hretry, h⟩ := Except.bind_eq_ok_iff.mp h
      obtain ⟨ci, o, hci, ho, rfl, rfl⟩ := call_inv hretry
      obtain ⟨hrun, hopen⟩ := retryCall_run ho
      have hne : i ≠ current := by
        rintro rfl
        cases hc.symm.trans hci
        cases hawaits.symm.trans (unblockFunc_awaits ho).1
      have hstep : (s.viewBut current history).step (.call i (retryCall t)) =
          .ok ((s.after i o).viewBut current (history ++ o.events.map fun event => (i, event))) := by
        rw [Connections.step_call_of ((if_neg hne).trans hci) hrun, viewBut_after hne hopen]
      have hone := Connections.perform_one hstep
      simp only at h
      split at h
      · obtain ⟨c', -, -, rfl⟩ := addBlocked_returns.mp ⟨n + 1, h⟩
        exact ⟨_, _, hone⟩
      · obtain ⟨s₃, happend, h⟩ := Except.bind_eq_ok_iff.mp h
        obtain ⟨links, list, rfl⟩ := append_frame happend
        obtain ⟨as, history', hrest⟩ := ih (history ++ o.events.map fun event => (i, event))
          ⟨c, (if_neg (Ne.symm hne)).trans hc, hawaits⟩ h
        exact ⟨_, history', Connections.perform_append hone hrest⟩

theorem heard_none (h : s.heard env = none) : ∃ current, s.currentConnection = some current ∧
    acceptDue env s = false ∧ ∀ c o, s.connections current = some c →
      connectionProc serverServices env.socket c (s.answered env).world = .ok o →
      o.result = .disconnect := by
  unfold heard at h
  split at h
  · cases h
  · rename_i current hcur
    split at h
    · cases h
    · rename_i hdue
      refine ⟨current, hcur, by simpa using hdue, fun c o hc ho => ?_⟩
      simp only [hc, ho] at h
      split at h
      · assumption
      · cases h

theorem acceptConnection_performs (history : List (Nat × Event)) (h : acceptConnection env s = .ok s') :
    ∃ as, Connections.perform as (s.view history) = .ok (s'.view history) := by
  cases haccept : env.accept with
  | none =>
    rw [acceptConnection_idle (Or.inl haccept)] at h
    cases h
    exact ⟨[], rfl⟩
  | refused =>
    rw [acceptConnection_idle (Or.inr haccept)] at h
    cases h
    exact ⟨[], rfl⟩
  | opened fileDescriptor header arguments =>
    rw [acceptConnection_opened haccept] at h
    obtain ⟨s₁, happend, h⟩ := Except.bind_eq_ok_iff.mp h
    obtain ⟨links, list, rfl⟩ := append_frame happend
    refine ⟨[.accept fileDescriptor header arguments], Connections.perform_one ?_⟩
    simp only at h
    split at h <;> cases h <;> rfl

theorem handleResult_view {next : Option Nat} {result : ConnectionResult} {n : Nat}
    (hd : result ≠ .disconnect) (h : handleResult n current next result s = .ok s') :
    s'.view history = s.view history := by
  have hblock : ∀ t, (s.remove current >>= fun s => s.addBlocked n current t) = .ok s' →
      s'.view history = s.view history := by
    intro t h
    obtain ⟨s₁, hremove, h⟩ := Except.bind_eq_ok_iff.mp h
    obtain ⟨links, list, rfl⟩ := remove_frame hremove
    obtain ⟨c', -, -, rfl⟩ := addBlocked_returns.mp ⟨n, h⟩
    rfl
  cases result with
  | success | noTransfer =>
    cases h
    rfl
  | newRequest =>
    obtain ⟨s₁, hremove, h⟩ := Except.bind_eq_ok_iff.mp h
    obtain ⟨links, list, rfl⟩ := remove_frame hremove
    obtain ⟨s₂, happend, h⟩ := Except.bind_eq_ok_iff.mp h
    obtain ⟨links', list', rfl⟩ := append_frame happend
    cases h
    rfl
  | disconnect => exact absurd rfl hd
  | readBlocked => exact hblock .read h
  | writeBlocked => exact hblock .write h

theorem handleResult_closed {next : Option Nat} {n : Nat}
    (h : handleResult n current next .disconnect s = .ok s') :
    s'.view history = s.viewBut current history := by
  obtain ⟨s₁, hremove, h⟩ := Except.bind_eq_ok_iff.mp h
  obtain ⟨links, list, rfl⟩ := remove_frame hremove
  cases h
  rfl

theorem cacheServerProc_heard {n : Nat} {events : List (Nat × Event)} (history : List (Nat × Event))
    (hs : s.Sound) (h : cacheServerProc n env s = .ok s') (hheard : s.heard env = some events) :
    ∃ as, Connections.perform as (s.view history) = .ok (s'.view (history ++ events)) := by
  have hanswer : Connections.perform [.answer env.answers] (s.view history) =
      .ok ((s.answered env).view history) := rfl
  rw [cacheServerProc_eq] at h
  unfold heard at hheard
  split at h
  · rename_i hcur
    rw [hcur] at hheard
    cases hheard
    obtain ⟨as, haccept⟩ := acceptConnection_performs history h
    rw [List.append_nil]
    exact ⟨_, Connections.perform_append hanswer haccept⟩
  · rename_i current hcur
    rw [hcur] at hheard
    split at h
    · rename_i hdue
      simp only [hdue, if_true] at hheard
      cases hheard
      obtain ⟨as, haccept⟩ := acceptConnection_performs history h
      rw [List.append_nil]
      exact ⟨_, Connections.perform_append hanswer haccept⟩
    · rename_i hdue
      obtain ⟨⟨r, s₁⟩, hcall, h⟩ := Except.bind_eq_ok_iff.mp h
      obtain ⟨c, o, hc, ho, rfl, rfl⟩ := call_inv hcall
      obtain ⟨s₂, hhandle, h⟩ := Except.bind_eq_ok_iff.mp h
      rw [handleLockReleaseEvent_eq (c := o.connection) (if_pos rfl)] at hhandle
      have hstep : ((s.answered env).view history).step (.call current (.proc env.socket)) =
          .ok (((s.answered env).view history).after current o) := Connections.step_call_of hc ho
      have hcalled := Connections.perform_append hanswer (Connections.perform_one hstep)
      change s.connections current = some c at hc
      simp only [hdue, hc, ho, Bool.false_eq_true, if_false] at hheard
      split at hheard
      · cases hheard
      · rename_i hopen
        cases hheard
        -- a connection that stays open has no event, and wakes nobody
        have hvalid := connectionProc_valid (hs.valid current c hc) ho
        rw [(hvalid hopen).event] at hhandle
        cases hhandle
        rw [view_after hopen, ← handleResult_view hopen h] at hcalled
        exact ⟨_, hcalled⟩

/-- A round is a sequence of steps of the connections. -/
theorem cacheServerProc_performs {n : Nat} (history : List (Nat × Event)) (hs : s.Sound)
    (h : cacheServerProc n env s = .ok s') :
    ∃ as history', Connections.perform as (s.view history) = .ok (s'.view history') := by
  cases hheard : s.heard env with
  | some events =>
    obtain ⟨as, hperform⟩ := cacheServerProc_heard history hs h hheard
    exact ⟨as, _, hperform⟩
  | none =>
    have hanswer : Connections.perform [.answer env.answers] (s.view history) =
        .ok ((s.answered env).view history) := rfl
    obtain ⟨current, hcur, hdue, hclosed⟩ := heard_none hheard
    rw [cacheServerProc_eq, hcur] at h
    simp only [hdue, Bool.false_eq_true, if_false] at h
    obtain ⟨⟨r, s₁⟩, hcall, h⟩ := Except.bind_eq_ok_iff.mp h
    obtain ⟨c, o, hc, ho, rfl, rfl⟩ := call_inv hcall
    obtain ⟨s₂, hhandle, h⟩ := Except.bind_eq_ok_iff.mp h
    rw [handleLockReleaseEvent_eq (c := o.connection) (if_pos rfl)] at hhandle
    have hstep : ((s.answered env).view history).step (.call current (.proc env.socket)) =
        .ok (((s.answered env).view history).after current o) := Connections.step_call_of hc ho
    have hcalled := Connections.perform_append hanswer (Connections.perform_one hstep)
    have hd : o.result = .disconnect := hclosed c o hc ho
    rw [view_after_closed hd] at hcalled
    have hfree : o.connection.state.awaits = none := by
      rw [connectionProc_awaits ho, hd]
      rfl
    have hself : ∃ c, ((s.answered env).after current o).connections current = some c ∧
        c.state.awaits = none := ⟨_, if_pos rfl, hfree⟩
    rw [hd] at h
    split at hhandle
    · cases hhandle
      rw [← handleResult_closed h] at hcalled
      exact ⟨_, _, hcalled⟩
    · obtain ⟨as, history', hretries⟩ := unblockLoop_performs _ hself hhandle
      rw [← handleResult_closed h] at hretries
      exact ⟨_, history', Connections.perform_append hcalled hretries⟩
    · obtain ⟨as, history', hretries⟩ := unblockLoop_performs _ hself hhandle
      rw [← handleResult_closed h] at hretries
      exact ⟨_, history', Connections.perform_append hcalled hretries⟩
    · cases hhandle

/-- The connections of a reachable server are reached by steps of their own. -/
theorem Reachable.performs {hash : List UInt8 → Nat} {capacityBytes : Nat} {memory : Memory}
    (h : Reachable hash capacityBytes memory s) : ∃ as history,
      Connections.perform as (connectionsOpen hash capacityBytes memory) = .ok (s.view history) := by
  induction h with
  | opened => exact ⟨[], [], rfl⟩
  | proc env n reachable step ih =>
    obtain ⟨as, history, hrun⟩ := ih
    obtain ⟨bs, history', hround⟩ := cacheServerProc_performs history reachable.sound step
    exact ⟨as ++ bs, history', Connections.perform_append hrun hround⟩

theorem recorded_performs {hash : List UInt8 → Nat} {capacityBytes n : Nat} {memory : Memory}
    {envs : List Environment} {history' : List (Nat × Event)} (h : Reachable hash capacityBytes memory s)
    (hperform : ∃ as,
      Connections.perform as (connectionsOpen hash capacityBytes memory) = .ok (s.view history))
    (hrun : recorded n envs s history = some (s', history')) :
    Reachable hash capacityBytes memory s' ∧ ∃ as,
      Connections.perform as (connectionsOpen hash capacityBytes memory) = .ok (s'.view history') := by
  induction envs generalizing s history with
  | nil =>
    cases hrun
    exact ⟨h, hperform⟩
  | cons env envs ih =>
    rw [recorded] at hrun
    split at hrun
    · rename_i s₁ events hstep hheard
      obtain ⟨as, hrun₀⟩ := hperform
      obtain ⟨bs, hround⟩ := cacheServerProc_heard history h.sound hstep hheard
      exact ih (.proc env n h hstep) ⟨_, Connections.perform_append hrun₀ hround⟩ hrun
    · cases hrun

end

end Server

end CacheServer
