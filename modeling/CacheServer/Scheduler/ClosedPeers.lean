import CacheServer.Scheduler.Schedule

/-!
# Peers that close

recv returns 0 once the peer has closed its end and all it sent is received.
connection_transfer takes that for a socket that is not ready: the connection
is not closed, and its turn comes again.
-/

namespace CacheServer

/-- The peer has closed its end, and all it sent is received. -/
structure Socket.Exhausted (s : Socket) : Prop where
  works : s.failed = false
  closed : s.peerClosed = true
  received : s.incoming = []

/-- The call disconnects, and frees the key buffer of the connection if it has one. -/
def CleansUp {σ : Type} (c : Connection) (r : Except Fault (Outcome σ)) : Prop :=
  ∃ o, r = .ok o ∧ o.result = .disconnect ∧ (c.flags.allocatedBuffer = true →
    ∃ p, c.entryHeader = some p ∧ .freed (.memory p) ∈ o.events)

section
variable {σ : Type} {S : Services σ} {socket : Socket} {c : Connection}

theorem Socket.Exhausted.recv (h : socket.Exhausted) (size : Nat) :
    socket.recv size = .transferred [] := by
  unfold Socket.recv
  rw [h.works, h.closed, h.received]
  simp

theorem connectionProc_exhausted (hs : c.state.receiving = true) (h : socket.Exhausted) (w : World σ) :
    connectionProc S socket c w = .ok ⟨.noTransfer, c, w, []⟩ := by
  have htransfer : connectionTransfer S socket c w = .ok ⟨.noTransfer, c, w, []⟩ := by
    rw [connectionTransfer_receiving _ _ _ _ hs, h.recv]
  rw [connectionProc_eq_of_transfer _ _ _ _ htransfer]
  rfl

theorem connectionProc_not_cleansUp (hs : c.state.receiving = true) (h : socket.Exhausted)
    (w : World σ) : ¬ CleansUp c (connectionProc S socket c w) := by
  rw [connectionProc_exhausted hs h]
  rintro ⟨o, ho, hresult, -⟩
  cases ho
  cases hresult

end

namespace Server

/-! ### The connection stays open -/

section
variable {s s' : Server} {env : Environment} {i current n : Nat} {c : Connection}

theorem unblockLoop_kept {t : BlockType} (hc : s.connections i = some c)
    (hawaits : c.state.awaits = none) (h : unblockLoop current t n s = .ok s') :
    s'.connections i = some c := by
  induction n generalizing s with
  | zero => cases h
  | succ n ih =>
    cases hcur : s.connections current with
    | none =>
      simp only [unblockLoop, deref, hcur] at h
      cases h
    | some c₀ =>
      rw [unblockLoop_succ n hcur] at h
      obtain ⟨⟨u, s₁⟩, hpop, h⟩ := Except.bind_eq_ok_iff.mp h
      obtain ⟨b, rfl⟩ := popBlocked_inv ⟨n + 1, hpop⟩
      cases u with
      | none =>
        cases h
        exact hc
      | some j =>
        obtain ⟨⟨r, s₂⟩, hretry, h⟩ := Except.bind_eq_ok_iff.mp h
        obtain ⟨cj, o, hcj, ho, rfl, rfl⟩ := call_inv hretry
        -- a connection that is retried awaits its turn
        have hij : i ≠ j := by
          rintro rfl
          cases hcj.symm.trans hc
          cases (unblockFunc_awaits ho).1.symm.trans hawaits
        have hkept : (({ s with blocked := b } : Server).after j o).connections i = some c :=
          (if_neg hij).trans hc
        simp only at h
        split at h
        · obtain ⟨c', -, -, rfl⟩ := addBlocked_returns.mp ⟨n + 1, h⟩
          exact hkept
        · obtain ⟨s₃, happend, h⟩ := Except.bind_eq_ok_iff.mp h
          obtain ⟨links, list, rfl⟩ := append_frame happend
          refine ih ?_ h
          exact hkept

theorem handleLockReleaseEvent_kept (hc : s.connections i = some c) (hawaits : c.state.awaits = none)
    (h : handleLockReleaseEvent n current s = .ok s') : s'.connections i = some c := by
  unfold handleLockReleaseEvent at h
  obtain ⟨c₀, -, h⟩ := Except.bind_eq_ok_iff.mp h
  split at h
  · cases h
    exact hc
  · exact unblockLoop_kept hc hawaits h
  · exact unblockLoop_kept hc hawaits h
  · cases h

/-- The switch over the result closes no connection but the current one. -/
theorem handleResult_kept {next : Option Nat} {result : ConnectionResult}
    (hc : s.connections i = some c) (hclosed : result = .disconnect → i ≠ current)
    (h : handleResult n current next result s = .ok s') : s'.connections i = some c := by
  have hblock : ∀ t, (s.remove current >>= fun s => s.addBlocked n current t) = .ok s' →
      s'.connections i = some c := by
    intro t h
    obtain ⟨s₁, hremove, h⟩ := Except.bind_eq_ok_iff.mp h
    obtain ⟨links, list, rfl⟩ := remove_frame hremove
    obtain ⟨c', -, -, rfl⟩ := addBlocked_returns.mp ⟨n, h⟩
    exact hc
  cases result with
  | success | noTransfer =>
    cases h
    exact hc
  | newRequest =>
    obtain ⟨s₁, hremove, h⟩ := Except.bind_eq_ok_iff.mp h
    obtain ⟨links, list, rfl⟩ := remove_frame hremove
    obtain ⟨s₂, happend, h⟩ := Except.bind_eq_ok_iff.mp h
    obtain ⟨links', list', rfl⟩ := append_frame happend
    cases h
    exact hc
  | disconnect =>
    obtain ⟨s₁, hremove, h⟩ := Except.bind_eq_ok_iff.mp h
    obtain ⟨links, list, rfl⟩ := remove_frame hremove
    cases h
    exact (if_neg (hclosed rfl)).trans hc
  | readBlocked => exact hblock .read h
  | writeBlocked => exact hblock .write h

theorem acceptConnection_kept (hs : s.Sound) (hc : s.connections i = some c)
    (h : acceptConnection env s = .ok s') : s'.connections i = some c := by
  cases haccept : env.accept with
  | none =>
    rw [acceptConnection_idle (Or.inl haccept)] at h
    cases h
    exact hc
  | refused =>
    rw [acceptConnection_idle (Or.inr haccept)] at h
    cases h
    exact hc
  | opened fileDescriptor header arguments =>
    rw [acceptConnection_opened haccept] at h
    obtain ⟨s₁, happend, h⟩ := Except.bind_eq_ok_iff.mp h
    obtain ⟨links, list, rfl⟩ := append_frame happend
    have hnew : i ≠ s.accepted := by
      rintro rfl
      cases (hs.fresh _ (Nat.le_refl _)).symm.trans hc
    have hkept : (s.opened env.answers.timestamp
        (connectionInit fileDescriptor header arguments)).connections i = some c :=
      (if_neg hnew).trans hc
    simp only at h
    split at h <;> cases h <;> exact hkept

theorem after_same (hc : s.connections i = some c) (r : ConnectionResult) (es : List Event) :
    s.after i ⟨r, c, s.world, es⟩ = s := by
  have hconn : (s.after i ⟨r, c, s.world, es⟩).connections = s.connections := by
    funext j
    rw [after_connections]
    split
    · rename_i hj
      rw [hj]
      exact hc.symm
    · rfl
  change ({ s with connections := (s.after i ⟨r, c, s.world, es⟩).connections } : Server) = s
  rw [hconn]

/-- A round whose receive finds the peer closed only moves on to the next connection. -/
theorem cacheServerProc_exhausted (hs : s.Sound) (hc : s.connections i = some c)
    (hreceiving : c.state.receiving = true) (hcur : s.currentConnection = some i)
    (hdue : acceptDue env s = false) (h : env.socket.Exhausted) (n : Nat) :
    cacheServerProc n env s =
      .ok { s.answered env with currentConnection := getNextConnection s i } := by
  have hanswered : (s.answered env).connections i = some c := hc
  have hcall : (s.answered env).call i (connectionProc serverServices env.socket) =
      .ok (.noTransfer, s.answered env) := by
    rw [call_of hanswered (connectionProc_exhausted hreceiving h _), after_same hanswered]
  rw [cacheServerProc_eq, hcur]
  simp only [hdue, hcall, Bool.false_eq_true, if_false]
  change handleLockReleaseEvent n i (s.answered env) >>= _ = _
  rw [handleLockReleaseEvent_eq hanswered, (hs.valid i c hc).event]
  rfl

theorem cacheServerProc_kept (hs : s.Sound) (hc : s.connections i = some c)
    (hreceiving : c.state.receiving = true)
    (hclosed : s.currentConnection = some i → env.socket.Exhausted)
    (h : cacheServerProc n env s = .ok s') : s'.connections i = some c := by
  have hsound : (s.answered env).Sound := ⟨hs.fresh, hs.valid⟩
  have hanswered : (s.answered env).connections i = some c := hc
  cases hdue : acceptDue env s with
  | true =>
    rw [cacheServerProc_eq] at h
    split at h
    · exact acceptConnection_kept hsound hanswered h
    · rw [if_pos hdue] at h
      exact acceptConnection_kept hsound hanswered h
  | false =>
    cases hcur : s.currentConnection with
    | none =>
      rw [cacheServerProc_eq, hcur] at h
      exact acceptConnection_kept hsound hanswered h
    | some current =>
      by_cases hi : current = i
      · subst hi
        rw [cacheServerProc_exhausted hs hc hreceiving hcur hdue (hclosed hcur)] at h
        cases h
        exact hc
      · rw [cacheServerProc_eq, hcur] at h
        simp only [hdue, Bool.false_eq_true, if_false] at h
        obtain ⟨⟨r, s₁⟩, hcall, h⟩ := Except.bind_eq_ok_iff.mp h
        obtain ⟨c₀, o, -, -, rfl, rfl⟩ := call_inv hcall
        obtain ⟨s₂, hhandle, h⟩ := Except.bind_eq_ok_iff.mp h
        have hne : i ≠ current := fun he => hi he.symm
        have hkept : ((s.answered env).after current o).connections i = some c :=
          (if_neg hne).trans hc
        have hawaits := awaits_of_transferring (Or.inl hreceiving)
        exact handleResult_kept (handleLockReleaseEvent_kept hkept hawaits hhandle) (fun _ => hne) h

end

/-- Rounds in which every receive of connection `i` finds its peer closed. -/
inductive ClosedRun (i : Nat) (s : Server) : Server → Prop
  | start : ClosedRun i s s
  | proc {s₁ s₂ : Server} (env : Environment) (fuel : Nat) (run : ClosedRun i s s₁)
      (closed : s₁.currentConnection = some i → env.socket.Exhausted)
      (step : cacheServerProc fuel env s₁ = .ok s₂) : ClosedRun i s s₂

theorem ClosedRun.kept {s s' : Server} {i : Nat} {c : Connection} (run : ClosedRun i s s')
    (hs : s.Sound) (hc : s.connections i = some c) (hreceiving : c.state.receiving = true) :
    s'.Sound ∧ s'.connections i = some c := by
  induction run with
  | start => exact ⟨hs, hc⟩
  | proc env fuel run closed step ih =>
    obtain ⟨hsound, hopen⟩ := ih
    exact ⟨cacheServerProc_sound hsound step,
      cacheServerProc_kept hsound hopen hreceiving closed step⟩

/-! ### The connection stays scheduled -/

/-- Every open connection that is not blocked is one of `xs`. -/
def Covers (s : Server) (xs : List Nat) : Prop :=
  ∀ i c, s.connections i = some c → c.state.awaits = none → i ∈ xs

section
variable {s s' : Server} {env : Environment} {current n : Nat} {xs ys a b is : List Nat}
  {o : Outcome System} {refusal : Option BlockType}

theorem Covers.after {i : Nat} (h : s.Covers xs) (ho : o.connection.state.awaits = none → i ∈ xs) :
    (s.after i o).Covers xs := by
  intro j c hc hawaits
  rw [after_connections] at hc
  split at hc
  · rename_i hj
    cases hc
    rw [hj]
    exact ho hawaits
  · exact h j c hc hawaits

theorem Covers.mono (h : s.Covers xs) (hsub : ∀ x ∈ xs, x ∈ ys) : s.Covers ys :=
  fun i c hc hawaits => hsub i (h i c hc hawaits)

theorem Covers.wakes {t : BlockType} (hw : Wakes current t s is s' refusal) (h : s.Covers xs) :
    s'.Covers (xs ++ is) := by
  induction hw generalizing xs with
  | done deref pop =>
    obtain ⟨b, rfl⟩ := popBlocked_inv pop
    rw [List.append_nil]
    exact h
  | @refused s₀ s₁ s' c i result deref pop retry failed =>
    obtain ⟨b, rfl⟩ := popBlocked_inv pop
    obtain ⟨c, o, -, ho, rfl, rfl⟩ := call_inv retry
    rw [List.append_nil]
    refine Covers.after (s := { s₀ with blocked := b }) h fun hfree => ?_
    -- a retry that fails leaves the connection blocked
    exact absurd ((unblockFunc_awaits ho).2.symm.trans hfree) (unblockFunc_failed ho failed)
  | @woken s₀ s₁ s₂ s₃ s' c i is refusal deref pop retry append rest ih =>
    obtain ⟨b, rfl⟩ := popBlocked_inv pop
    obtain ⟨c, o, -, -, -, rfl⟩ := call_inv retry
    obtain ⟨links, list, rfl⟩ := append_frame append
    rw [← List.singleton_append, ← List.append_assoc]
    refine ih ?_
    have hmore : ({ s₀ with blocked := b } : Server).Covers (xs ++ [i]) :=
      Covers.mono h fun x hx => List.mem_append_left _ hx
    exact hmore.after fun _ => by simp

theorem Covers.handles (hw : Handles current s is s' refusal) (h : s.Covers xs) :
    s'.Covers (xs ++ is) := by
  cases hw with
  | quiet deref event =>
    rw [List.append_nil]
    exact h
  | unblocks type deref event wakes => exact h.wakes wakes

/-- The switch over the result takes none but a closed connection off the list. -/
theorem handleResult_covers {next : Option Nat} {result : ConnectionResult}
    (hready : s.Ready (a ++ current :: b)) (hall : s.Covers (a ++ current :: b))
    (hr : result.blocks = none) (h : handleResult n current next result s = .ok s')
    (hactive : s'.Active ys) : s'.Covers ys := by
  cases result with
  | success | noTransfer =>
    cases h
    rw [Linked.unique hactive hready.active]
    exact hall
  | newRequest =>
    obtain ⟨links, list, hrequeue, hchain⟩ := hready.requeue
    cases (hrequeue n).symm.trans h
    rw [Linked.unique hactive hchain]
    refine hall.mono fun x hx => ?_
    simp only [List.mem_append, List.mem_cons, List.not_mem_nil, or_false] at hx ⊢
    tauto
  | disconnect =>
    obtain ⟨links, list, hremove, hrest, -⟩ := hready.remove
    obtain ⟨s₁, hs₁, h⟩ := Except.bind_eq_ok_iff.mp h
    cases hremove.symm.trans hs₁
    cases h
    rw [Linked.unique hactive hrest.active]
    intro j c hc hawaits
    have hj : j ≠ current := by
      rintro rfl
      cases (if_pos rfl).symm.trans hc
    have hmem := hall j c ((if_neg hj).symm.trans hc) hawaits
    simp only [List.mem_append, List.mem_cons] at hmem ⊢
    tauto
  | readBlocked | writeBlocked => cases hr

theorem serves_covers {s₁ : Server} {woken : List Nat} (hs : s.Sound) (hready : s.Ready xs)
    (hall : s.Covers xs) (hcur : current ∈ xs) (serves : s.Serves env current o woken s₁ refusal)
    (keeps : s.KeepsSchedule current o.result woken s₁ refusal)
    (step : cacheServerProc n env s = .ok s') (hactive : s'.Active ys) : s'.Covers ys := by
  obtain ⟨a, b, rfl⟩ := List.append_of_mem hcur
  obtain ⟨c, hc, ho⟩ := serves.proc
  have hawaits : o.connection.state.awaits = none := (connectionProc_awaits ho).trans keeps.unblocked
  have hready₁ : ((s.answered env).after current o).Ready (a ++ current :: b) :=
    Ready.after_self (s := s.answered env) ⟨hready.active, hready.ready⟩ hawaits
  have hall₁ : ((s.answered env).after current o).Covers (a ++ current :: b) :=
    Covers.after (s := s.answered env) hall fun _ => by simp
  have hready₂ := (hready₁.handles serves.handles (by simp)).ready
  have hall₂ := hall₁.handles serves.handles
  obtain ⟨s₂, hrequeues, m, hhandle⟩ := (cacheServerProc_returns serves).mp ⟨n, step⟩
  cases refusal with
  | none =>
    have hs₂ : s₂ = s₁ := hrequeues
    subst hs₂
    rw [List.append_assoc, List.cons_append] at hready₂ hall₂
    exact handleResult_covers hready₂ hall₂ keeps.unblocked hhandle hactive
  | some t =>
    -- the retry failed, so the connection was the only one of the list, and it is closed
    have hd : o.result = .disconnect := by
      by_contra hd
      obtain ⟨-, -, hrefusal⟩ := serves.quiet hs hd
      cases hrefusal
    obtain ⟨halone, hwoken, -⟩ := keeps.refused (by simp)
    obtain ⟨rfl, rfl⟩ := (alone_iff_of_active hready.active).mp halone
    subst hwoken
    obtain ⟨c', -, -, rfl⟩ := addBlocked_returns.mp hrequeues
    rw [hd] at hhandle
    obtain ⟨s₃, hremove, hhandle⟩ := Except.bind_eq_ok_iff.mp hhandle
    obtain ⟨links, list, rfl⟩ := remove_frame hremove
    cases hhandle
    intro j c hc hawaits
    have hj : j ≠ current := by
      rintro rfl
      cases (if_pos rfl).symm.trans hc
    have hmem := hall₂ j c ((if_neg hj).symm.trans hc) hawaits
    simp only [List.nil_append, List.append_nil, List.mem_singleton] at hmem
    exact absurd hmem hj

theorem acceptConnection_covers (hs : s.Sound) (hready : s.Ready xs) (hall : s.Covers xs)
    (h : acceptConnection env s = .ok s') (hactive : s'.Active ys) : s'.Covers ys := by
  cases haccept : env.accept with
  | none =>
    rw [acceptConnection_idle (Or.inl haccept)] at h
    cases h
    rw [Linked.unique hactive hready.active]
    exact hall
  | refused =>
    rw [acceptConnection_idle (Or.inr haccept)] at h
    cases h
    rw [Linked.unique hactive hready.active]
    exact hall
  | opened fileDescriptor header arguments =>
    obtain ⟨links, list, happend, hchain⟩ := hready.opened hs env.answers.timestamp
      (connectionInit fileDescriptor header arguments)
    rw [acceptConnection_opened haccept] at h
    obtain ⟨s₁, hs₁, h⟩ := Except.bind_eq_ok_iff.mp h
    cases happend.symm.trans hs₁
    simp only at h
    have hlist : s'.Active (xs ++ [s.accepted]) ∧ s'.connections = (s.opened env.answers.timestamp
        (connectionInit fileDescriptor header arguments)).connections := by
      split at h <;> cases h <;> exact ⟨hchain, rfl⟩
    rw [Linked.unique hactive hlist.1]
    intro i c hc hawaits
    rw [hlist.2] at hc
    by_cases hi : i = s.accepted
    · exact List.mem_append_right _ (List.mem_singleton.mpr hi)
    · exact List.mem_append_left _ (hall i c ((if_neg hi).symm.trans hc) hawaits)

end

/-- As long as the schedule is kept, every connection that is not blocked has its turns. -/
theorem Kept.covers {hash : List UInt8 → Nat} {capacityBytes : Nat} {memory : Memory} {s : Server}
    (h : Kept hash capacityBytes memory s) : ∃ xs, s.Scheduled xs ∧ s.Covers xs := by
  induction h with
  | opened =>
    have hwellFormed : (cacheServerOpen hash capacityBytes memory).WellFormed :=
      cacheServerOpen_wellFormed
    obtain ⟨xs, hxs⟩ := hwellFormed
    exact ⟨xs, hxs, fun i c hc => by cases hc⟩
  | @accepts s s' env fuel kept due step ih =>
    obtain ⟨xs, hxs, hall⟩ := ih
    obtain ⟨ys, hys⟩ := (Kept.accepts env fuel kept due step).wellFormed.2
    have hs := kept.wellFormed.1
    refine ⟨ys, hys, ?_⟩
    have haccept : acceptConnection env (s.answered env) = .ok s' := by
      rw [cacheServerProc_eq] at step
      split at step
      · exact step
      · rename_i current hcur
        rcases due with hnone | hdue
        · cases hcur.symm.trans hnone
        · rwa [if_pos hdue] at step
    exact acceptConnection_covers (s := s.answered env) ⟨hs.fresh, hs.valid⟩ ⟨hxs.active, hxs.ready⟩
      hall haccept hys.active
  | serves fuel kept serves keeps step ih =>
    obtain ⟨xs, hxs, hall⟩ := ih
    obtain ⟨ys, hys⟩ := (Kept.serves fuel kept serves keeps step).wellFormed.2
    exact ⟨ys, hys, serves_covers kept.wellFormed.1 hxs.toReady hall
      (hxs.current _ serves.cursor) serves keeps step hys.active⟩

end Server

open Server

/-- A connection whose peer has closed is never cleaned up: no call disconnects it or frees its
key buffer, its turn passes to the next connection, and through any later rounds it stays open,
in the active list as long as the schedule is kept. -/
theorem closed_peer_stays {hash : List UInt8 → Nat} {capacityBytes : Nat} {memory : Memory}
    {s : Server} (hs : Reachable hash capacityBytes memory s) {i : Nat} {c : Connection}
    (hc : s.connections i = some c) (hreceiving : c.state.receiving = true) :
    (∀ socket, socket.Exhausted → ∀ w,
      connectionProc serverServices socket c w = .ok ⟨.noTransfer, c, w, []⟩ ∧
        ¬ CleansUp c (connectionProc serverServices socket c w)) ∧
    (∀ env, s.currentConnection = some i → acceptDue env s = false → env.socket.Exhausted →
      ∀ n, cacheServerProc n env s =
        .ok { s.answered env with currentConnection := getNextConnection s i }) ∧
    ∀ s', ClosedRun i s s' → s'.connections i = some c ∧
      (Kept hash capacityBytes memory s' → ∃ xs, s'.Scheduled xs ∧ i ∈ xs) := by
  refine ⟨fun socket h w => ?_, fun env hcur hdue h n => ?_, fun s' run => ?_⟩
  · exact ⟨connectionProc_exhausted hreceiving h w, connectionProc_not_cleansUp hreceiving h w⟩
  · exact cacheServerProc_exhausted hs.sound hc hreceiving hcur hdue h n
  · obtain ⟨-, hopen⟩ := run.kept hs.sound hc hreceiving
    refine ⟨hopen, fun kept => ?_⟩
    obtain ⟨xs, hscheduled, hall⟩ := kept.covers
    exact ⟨xs, hscheduled, hall i c hopen (awaits_of_transferring (Or.inl hreceiving))⟩

/-- A client asks for a key of one byte and closes its end. -/
def closes : Environment := ⟨⟨false, false, 0, 1000, false⟩, .none, ⟨[], true, 0, false⟩⟩

def asksKey : List Environment := [connects 0, receives 0 [1, 0, 1, 1], receives 0 [1, 0]]

theorem closes_exhausted : closes.socket.Exhausted := ⟨rfl, rfl, rfl⟩

theorem asksKey_receives : ∃ s c, Reachable ByteArea.decodeLE 64 (fun _ _ => 0) s ∧
    s.connections 0 = some c ∧ c.state = .receivingBody ∧ c.remainingBytes = 1 ∧
      c.flags.allocatedBuffer = true ∧ s.currentConnection = some 0 ∧ getNextConnection s 0 = some 0 ∧
      s.world.system.keyBuffers = [0] ∧ acceptDue closes s = false := by
  have hrun : (run 1 asksKey smallServer).Gives fun s => ∃ c ∈ s.connections 0,
      c.state = .receivingBody ∧ c.remainingBytes = 1 ∧ c.flags.allocatedBuffer = true ∧
        s.currentConnection = some 0 ∧ getNextConnection s 0 = some 0 ∧
        s.world.system.keyBuffers = [0] ∧ acceptDue closes s = false := by
    decide +kernel
  obtain ⟨s, hs, c, hc, hstate⟩ := hrun
  exact ⟨s, c, run_reachable .opened hs, hc, hstate⟩

theorem closed_peer_stays_asking : ∃ s c, s.connections 0 = some c ∧
    ¬ CleansUp c (connectionProc serverServices closes.socket c s.world) ∧
      ClosedRun 0 s { s.answered closes with currentConnection := getNextConnection s 0 } ∧
      (s.answered closes).connections 0 = some c := by
  obtain ⟨s, c, hreach, hc, hstate, -, -, hcur, -, -, hdue⟩ := asksKey_receives
  obtain ⟨hproc, hround, hrun⟩ := closed_peer_stays hreach hc (by rw [hstate]; rfl)
  have run : ClosedRun 0 s { s.answered closes with currentConnection := getNextConnection s 0 } :=
    .proc closes 1 .start (fun _ => closes_exhausted) (hround closes hcur hdue closes_exhausted 1)
  exact ⟨s, c, hc, (hproc _ closes_exhausted _).2, run, (hrun _ run).1⟩

/- The key never comes: the connection keeps its buffer and is served again. -/
theorem closed_peer_leaks : ∃ s c, Reachable ByteArea.decodeLE 64 (fun _ _ => 0) s ∧
    s.connections 0 = some c ∧ c.state = .receivingBody ∧ 0 < c.remainingBytes ∧
      c.flags.allocatedBuffer = true ∧
      ¬ CleansUp c (connectionProc serverServices closes.socket c s.world) ∧
      ∃ s', cacheServerProc 1 closes s = .ok s' ∧ s'.connections 0 = some c ∧
        s'.currentConnection = some 0 ∧ s'.world.system.keyBuffers = [0] := by
  obtain ⟨s, c, hreach, hc, hstate, hmore, hbuffer, hcur, hnext, hkeys, hdue⟩ := asksKey_receives
  have hreceiving : c.state.receiving = true := by
    rw [hstate]
    rfl
  refine ⟨s, c, hreach, hc, hstate, by omega, hbuffer,
    connectionProc_not_cleansUp hreceiving closes_exhausted _, _,
    cacheServerProc_exhausted hreach.sound hc hreceiving hcur hdue closes_exhausted 1, hc, hnext, hkeys⟩

end CacheServer
