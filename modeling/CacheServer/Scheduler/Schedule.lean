import CacheServer.Scheduler.Rounds

/-!
# The schedule over whole runs

Every server that a run from `cache_server_open` reaches is `Sound`. It is well
formed as long as no round breaks the schedule; a write that blocks does.
-/

namespace CacheServer

namespace Server

section
variable {s s₁ s' : Server} {env : Environment} {current : Nat} {o : Outcome System}
  {woken : List Nat} {refusal : Option BlockType}

/-! ### Soundness -/

/-- `Sound` but for the connection `current`, which a round may be about to close. -/
structure SoundBut (s : Server) (current : Nat) : Prop where
  fresh : ∀ i, s.accepted ≤ i → s.connections i = none
  valid : ∀ i c, i ≠ current → s.connections i = some c → c.Valid

theorem Sound.but (h : s.Sound) (current : Nat) : s.SoundBut current :=
  ⟨h.fresh, fun i c _ hc => h.valid i c hc⟩

theorem SoundBut.after (h : s.SoundBut current) {i : Nat} {c : Connection} {o : Outcome System}
    (hc : s.connections i = some c) (ho : i ≠ current → o.connection.Valid) :
    (s.after i o).SoundBut current := by
  constructor
  · intro j hj
    have hji : j ≠ i := by
      rintro rfl
      rw [h.fresh j hj] at hc
      cases hc
    exact (if_neg hji).trans (h.fresh j hj)
  · intro j c' hj hc'
    rw [after_connections] at hc'
    split at hc'
    · rename_i hji
      cases hc'
      exact ho fun he => hj (hji.trans he)
    · exact h.valid j c' hj hc'

theorem append_frame {i : Nat} (h : s.append i = .ok s') :
    ∃ links list, s' = { s with links, list } := by
  unfold append at h
  obtain ⟨⟨links, list⟩, -, h⟩ := Except.bind_eq_ok_iff.mp h
  cases h
  exact ⟨links, list, rfl⟩

theorem unblockFunc_valid {c : Connection} {w : World System} {t : BlockType} (hc : c.Valid)
    (h : unblockFunc t c w = .ok o) : o.connection.Valid := by
  cases t with
  | read =>
    refine connectionUnblockRead_valid hc h ?_
    rcases connectionUnblockRead_result h with hr | hr <;> rw [hr] <;> decide
  | write =>
    refine connectionUnblockWrite_valid hc h ?_
    rcases connectionUnblockWrite_result h with hr | hr <;> rw [hr] <;> decide

theorem unblockFunc_failed {c : Connection} {w : World System} {t : BlockType}
    (h : unblockFunc t c w = .ok o) (hfailed : o.result ≠ .success) : o.result.blocks ≠ none := by
  cases t with
  | read =>
    rcases connectionUnblockRead_result h with hr | hr
    · exact absurd hr hfailed
    · rw [hr]
      simp [ConnectionResult.blocks]
  | write =>
    rcases connectionUnblockWrite_result h with hr | hr
    · exact absurd hr hfailed
    · rw [hr]
      simp [ConnectionResult.blocks]

theorem unblockLoop_sound {t : BlockType} {n : Nat} (hs : s.SoundBut current)
    (h : unblockLoop current t n s = .ok s') : s'.SoundBut current := by
  induction n generalizing s with
  | zero => cases h
  | succ n ih =>
    cases hc : s.connections current with
    | none =>
      simp only [unblockLoop, deref, hc] at h
      cases h
    | some c =>
      rw [unblockLoop_succ n hc] at h
      obtain ⟨⟨u, s₁⟩, hpop, h⟩ := Except.bind_eq_ok_iff.mp h
      obtain ⟨b, rfl⟩ := popBlocked_inv ⟨n + 1, hpop⟩
      have hs₁ : ({ s with blocked := b } : Server).SoundBut current := ⟨hs.fresh, hs.valid⟩
      cases u with
      | none =>
        cases h
        exact hs₁
      | some i =>
        obtain ⟨⟨r, s₂⟩, hretry, h⟩ := Except.bind_eq_ok_iff.mp h
        obtain ⟨ci, o, hci, ho, rfl, rfl⟩ := call_inv hretry
        have hs₂ := hs₁.after hci fun hi => unblockFunc_valid (hs₁.valid i ci hi hci) ho
        simp only at h
        split at h
        · obtain ⟨c', -, -, rfl⟩ := addBlocked_returns.mp ⟨n + 1, h⟩
          exact ⟨hs₂.fresh, hs₂.valid⟩
        · obtain ⟨s₃, happend, h⟩ := Except.bind_eq_ok_iff.mp h
          obtain ⟨links, list, rfl⟩ := append_frame happend
          refine ih ?_ h
          exact ⟨hs₂.fresh, hs₂.valid⟩

theorem handleResult_sound {next : Option Nat} {result : ConnectionResult} {n : Nat}
    (hs : s.SoundBut current) (hd : result ≠ .disconnect → s.Sound)
    (h : handleResult n current next result s = .ok s') : s'.Sound := by
  have hblock : ∀ t, s.Sound → (s.remove current >>= fun s => s.addBlocked n current t) = .ok s' →
      s'.Sound := by
    intro t hsound h
    obtain ⟨s₁, hremove, h⟩ := Except.bind_eq_ok_iff.mp h
    obtain ⟨links, list, rfl⟩ := remove_frame hremove
    obtain ⟨c', -, -, rfl⟩ := addBlocked_returns.mp ⟨n, h⟩
    exact ⟨hsound.fresh, hsound.valid⟩
  cases result with
  | success | noTransfer =>
    cases h
    exact ⟨(hd (by decide)).fresh, (hd (by decide)).valid⟩
  | newRequest =>
    obtain ⟨s₁, hremove, h⟩ := Except.bind_eq_ok_iff.mp h
    obtain ⟨links, list, rfl⟩ := remove_frame hremove
    obtain ⟨s₂, happend, h⟩ := Except.bind_eq_ok_iff.mp h
    obtain ⟨links', list', rfl⟩ := append_frame happend
    cases h
    exact ⟨(hd (by decide)).fresh, (hd (by decide)).valid⟩
  | disconnect =>
    obtain ⟨s₁, hremove, h⟩ := Except.bind_eq_ok_iff.mp h
    obtain ⟨links, list, rfl⟩ := remove_frame hremove
    cases h
    constructor
    · intro i hi
      by_cases hic : i = current
      · exact if_pos hic
      · exact (if_neg hic).trans (hs.fresh i hi)
    · intro i c hc
      by_cases hic : i = current
      · exact absurd ((if_pos hic).symm.trans hc) (by simp)
      · exact hs.valid i c hic ((if_neg hic).symm.trans hc)
  | readBlocked => exact hblock .read (hd (by decide)) h
  | writeBlocked => exact hblock .write (hd (by decide)) h

theorem acceptConnection_sound (hs : s.Sound) (h : acceptConnection env s = .ok s') :
    s'.Sound := by
  cases haccept : env.accept with
  | none =>
    rw [acceptConnection_idle (Or.inl haccept)] at h
    cases h
    exact ⟨hs.fresh, hs.valid⟩
  | refused =>
    rw [acceptConnection_idle (Or.inr haccept)] at h
    cases h
    exact ⟨hs.fresh, hs.valid⟩
  | opened fileDescriptor header arguments =>
    rw [acceptConnection_opened haccept] at h
    obtain ⟨s₁, happend, h⟩ := Except.bind_eq_ok_iff.mp h
    obtain ⟨links, list, rfl⟩ := append_frame happend
    have hs₁ : (s.opened env.answers.timestamp
        (connectionInit fileDescriptor header arguments)).Sound := by
      constructor
      · intro i hi
        have hi : s.accepted + 1 ≤ i := hi
        exact (if_neg (by omega)).trans (hs.fresh i (by omega))
      · intro i c hc
        by_cases hi : i = s.accepted
        · cases (if_pos hi).symm.trans hc
          exact connectionInit_valid fileDescriptor header arguments
        · exact hs.valid i c ((if_neg hi).symm.trans hc)
    simp only at h
    split at h <;> cases h <;> exact ⟨hs₁.fresh, hs₁.valid⟩

theorem cacheServerProc_sound {n : Nat} (hs : s.Sound) (h : cacheServerProc n env s = .ok s') :
    s'.Sound := by
  have hanswered : (s.answered env).Sound := ⟨hs.fresh, hs.valid⟩
  rw [cacheServerProc_eq] at h
  split at h
  · exact acceptConnection_sound hanswered h
  · rename_i current hcur
    split at h
    · exact acceptConnection_sound hanswered h
    · obtain ⟨⟨r, s₁⟩, hcall, h⟩ := Except.bind_eq_ok_iff.mp h
      obtain ⟨c, o, hc, ho, rfl, rfl⟩ := call_inv hcall
      obtain ⟨s₂, hhandle, h⟩ := Except.bind_eq_ok_iff.mp h
      have hvalid := connectionProc_valid (hs.valid current c hc) ho
      have hbut : ((s.answered env).after current o).SoundBut current :=
        (hanswered.but current).after hc fun hne => absurd rfl hne
      rw [handleLockReleaseEvent_eq (c := o.connection) (if_pos rfl)] at hhandle
      refine handleResult_sound ?_ (fun hd => ?_) h
      · split at hhandle
        · cases hhandle
          exact hbut
        · exact unblockLoop_sound hbut hhandle
        · exact unblockLoop_sound hbut hhandle
        · cases hhandle
      · rw [(hvalid hd).event] at hhandle
        cases hhandle
        refine ⟨hbut.fresh, fun i c' hc' => ?_⟩
        by_cases hi : i = current
        · cases (if_pos hi).symm.trans hc'
          exact hvalid hd
        · exact hbut.valid i c' hi hc'

end

/-! ### Runs -/

/-- The servers that runs reach. -/
inductive Reachable (hash : List UInt8 → Nat) (capacityBytes : Nat) (memory : Memory) :
    Server → Prop
  | opened : Reachable hash capacityBytes memory (cacheServerOpen hash capacityBytes memory)
  | proc {s s' : Server} (env : Environment) (fuel : Nat)
      (reachable : Reachable hash capacityBytes memory s)
      (step : cacheServerProc fuel env s = .ok s') : Reachable hash capacityBytes memory s'

/-- Those that are reached by rounds that keep the schedule. -/
inductive Kept (hash : List UInt8 → Nat) (capacityBytes : Nat) (memory : Memory) : Server → Prop
  | opened : Kept hash capacityBytes memory (cacheServerOpen hash capacityBytes memory)
  | accepts {s s' : Server} (env : Environment) (fuel : Nat) (kept : Kept hash capacityBytes memory s)
      (due : s.currentConnection = none ∨ acceptDue env s = true)
      (step : cacheServerProc fuel env s = .ok s') : Kept hash capacityBytes memory s'
  | serves {s s₁ s' : Server} {env : Environment} {current : Nat} {o : Outcome System}
      {woken : List Nat} {refusal : Option BlockType} (fuel : Nat)
      (kept : Kept hash capacityBytes memory s) (serves : s.Serves env current o woken s₁ refusal)
      (keeps : s.KeepsSchedule current o.result woken s₁ refusal)
      (step : cacheServerProc fuel env s = .ok s') : Kept hash capacityBytes memory s'

section
variable {hash : List UInt8 → Nat} {capacityBytes : Nat} {memory : Memory} {s s' : Server}
  {env : Environment}

theorem cacheServerOpen_sound : (cacheServerOpen hash capacityBytes memory).Sound :=
  ⟨fun _ _ => rfl, fun _ _ hc => by cases hc⟩

theorem cacheServerOpen_wellFormed : (cacheServerOpen hash capacityBytes memory).WellFormed :=
  ⟨[], ⟨Linked.nil, fun _ hi => by cases hi⟩, ⟨fun _ => rfl, fun _ => rfl⟩, fun _ hi => by cases hi⟩

theorem Reachable.sound (h : Reachable hash capacityBytes memory s) : s.Sound := by
  induction h with
  | opened => exact cacheServerOpen_sound
  | proc env fuel reachable step ih => exact cacheServerProc_sound ih step

theorem accepts_wellFormed (hs : s.Sound) (hw : s.WellFormed)
    (hdue : s.currentConnection = none ∨ acceptDue env s = true) :
    ∃ s', (∀ n, cacheServerProc n env s = .ok s') ∧ s'.WellFormed := by
  have hanswered : (s.answered env).WellFormed := by
    obtain ⟨xs, hready, hidle, hcur⟩ := hw
    exact ⟨xs, ⟨hready.active, hready.ready⟩, hidle, hcur⟩
  have hsound : (s.answered env).Sound := ⟨hs.fresh, hs.valid⟩
  have haccept : ∃ s', acceptConnection env (s.answered env) = .ok s' ∧ s'.WellFormed :=
    acceptConnection_wellFormed hsound hanswered
  obtain ⟨s', hs', hwf⟩ := haccept
  refine ⟨s', fun n => ?_, hwf⟩
  rw [cacheServerProc_eq]
  rcases hdue with hnone | hdue
  · rw [hnone]
    exact hs'
  · cases s.currentConnection with
    | none => exact hs'
    | some current =>
      simp only [hdue, if_true]
      exact hs'

theorem cacheServerProc_steady : Steady fun n => cacheServerProc n env s := by
  simp only [cacheServerProc_eq]
  cases s.currentConnection with
  | none => exact Steady.const _
  | some current =>
    cases acceptDue env s with
    | true => exact Steady.const _
    | false => exact Steady.bind (Steady.const _) fun r =>
        Steady.bind handleLockReleaseEvent_steady fun s₂ => handleResult_steady

/-- A run whose rounds all keep the schedule is well formed throughout. -/
theorem Kept.wellFormed (h : Kept hash capacityBytes memory s) : s.Sound ∧ s.WellFormed := by
  induction h with
  | opened => exact ⟨cacheServerOpen_sound, cacheServerOpen_wellFormed⟩
  | accepts env fuel kept due step ih =>
    obtain ⟨s'', hs'', hwf⟩ := accepts_wellFormed ih.1 ih.2 due
    cases step.symm.trans (hs'' fuel)
    exact ⟨cacheServerProc_sound ih.1 step, hwf⟩
  | serves fuel kept serves keeps step ih =>
    obtain ⟨s'', hreturns, hwf⟩ := (serves_wellFormed_iff ih.1 ih.2 serves).mpr keeps
    cases Returns.unique cacheServerProc_steady hreturns ⟨fuel, step⟩
    exact ⟨cacheServerProc_sound ih.1 step, hwf⟩

theorem socketFailure_assertion {c : Connection} {w : World System} :
    socketFailure serverServices c w ≠ .error .assertion := by
  have hfree : ∀ b (w : World System), freeKey b w ≠ .error .assertion := by
    intro b w h
    unfold freeKey at h
    split at h
    · split at h <;> cases h
    · cases h
  intro h
  unfold socketFailure at h
  split at h
  · rename_i fault hfault
    cases h
    split at hfault
    · exact hfree _ _ hfault
    · cases hfault
  · simp only at h
    split at h
    · split at h <;> cases h
    · cases h

theorem connectionTransfer_scheduled (hs : s.Sound) (hw : s.WellFormed) {current : Nat}
    {c : Connection} (hcur : s.currentConnection = some current)
    (hc : s.connections current = some c) (socket : Socket) (w : World System) :
    connectionTransfer serverServices socket c w ≠ .error .assertion := by
  obtain ⟨xs, hready, -, hmem⟩ := hw
  obtain ⟨c', hc', hawaits⟩ := hready.ready current (hmem current hcur)
  rw [hc] at hc'
  cases hc'
  have hphase := (hs.valid current c hc).phase.transferring hawaits
  have hcases := connectionTransfer_cases serverServices socket c w
  intro he
  rw [he] at hcases
  generalize hr : (.error .assertion : Except Fault (Outcome System)) = r at hcases
  cases hcases with
  | unsupported state =>
    rcases hphase with h | h
    · exact absurd (h.symm.trans state.1) (by decide)
    · exact absurd (h.symm.trans state.2) (by decide)
  | failed => exact socketFailure_assertion hr.symm
  | idle | received | sent => cases hr

end

end Server

open Server

/-! ### Small runs -/

def run (fuel : Nat) : List Environment → Server → Except Fault Server
  | [], s => .ok s
  | env :: envs, s => do
    let s ← cacheServerProc fuel env s
    run fuel envs s

theorem run_reachable {hash : List UInt8 → Nat} {capacityBytes : Nat} {memory : Memory}
    {fuel : Nat} {envs : List Environment} {s s' : Server}
    (h : Reachable hash capacityBytes memory s) (hr : run fuel envs s = .ok s') :
    Reachable hash capacityBytes memory s' := by
  induction envs generalizing s with
  | nil =>
    cases hr
    exact h
  | cons env envs ih =>
    obtain ⟨s₁, hstep, hr⟩ := Except.bind_eq_ok_iff.mp hr
    exact ih (.proc env fuel h hstep) hr

-- one client connects, or the connection that is scheduled is handed or rid of some bytes
def connects (timestamp : Nat) : Environment :=
  ⟨⟨false, false, timestamp, 1000, false⟩, .opened 5 (fun _ => 0) fun _ => 0, ⟨[], false, 0, false⟩⟩

def receives (timestamp : Nat) (bytes : List UInt8) : Environment :=
  ⟨⟨false, false, timestamp, 1000, false⟩, .none, ⟨bytes, false, 0, false⟩⟩

def sends (timestamp count : Nat) : Environment :=
  ⟨⟨false, false, timestamp, 1000, false⟩, .none, ⟨[], false, count, false⟩⟩

/-- A server with 64 bytes for entries. -/
def smallServer : Server := cacheServerOpen ByteArea.decodeLE 64 fun _ _ => 0

/-! ### Rounds -/

/-- A round on a well-formed server. Accepting always leaves a well-formed one, serving does
exactly when `KeepsSchedule` holds, and the connection served is never a blocked one. -/
theorem cacheServerProc_wellFormed_iff {s : Server} (hs : s.Sound) (hw : s.WellFormed)
    (env : Environment) :
    (s.currentConnection = none ∨ acceptDue env s = true →
      ∃ s', (∀ n, cacheServerProc n env s = .ok s') ∧ s'.WellFormed) ∧
    (∀ current o woken s₁ refusal, s.Serves env current o woken s₁ refusal →
      ((∃ s', (∃ n, cacheServerProc n env s = .ok s') ∧ s'.WellFormed) ↔
        s.KeepsSchedule current o.result woken s₁ refusal)) ∧
    ∀ current c, s.currentConnection = some current → s.connections current = some c →
      ∀ socket w, connectionTransfer serverServices socket c w ≠ .error .assertion :=
  ⟨accepts_wellFormed hs hw, fun _ _ _ _ _ h => serves_wellFormed_iff hs hw h,
    fun _ _ hcur hc => connectionTransfer_scheduled hs hw hcur hc⟩

/- Two clients have connected, and the first one has sent a `PING`. The round that sends the
`PONG` to the end moves its connection behind the other one. -/
theorem cacheServerProc_wellFormed_served : ∃ s o s₁ s', s.WellFormed ∧
    s.Serves (sends 2000 1) 0 o [] s₁ none ∧ o.result = .newRequest ∧
      (∃ n, cacheServerProc n (sends 2000 1) s = .ok s') ∧ s'.WellFormed := by
  have hrun : (run 1 [connects 0, connects 2000, receives 2000 [1, 0, 1, 4]] smallServer).Gives
      fun s => s.Scheduled [0, 1] ∧ s.currentConnection = some 0 ∧ acceptDue (sends 2000 1) s = false ∧
        ∃ c ∈ s.connections 0, (connectionProc serverServices (sends 2000 1).socket c
          (s.answered (sends 2000 1)).world).Gives fun o => o.result = .newRequest ∧
            o.connection.lockReleaseEvent = .none := by
    decide +kernel
  obtain ⟨s, hs, htwo, hcur, hdue, c, hc, o, ho, hresult, hevent⟩ := hrun
  have hself : ((s.answered (sends 2000 1)).after 0 o).connections 0 = some o.connection := rfl
  have hserves : s.Serves (sends 2000 1) 0 o [] ((s.answered (sends 2000 1)).after 0 o) none :=
    ⟨hcur, hdue, ⟨c, hc, ho⟩, .quiet hself hevent⟩
  have hkeeps : s.KeepsSchedule 0 o.result [] ((s.answered (sends 2000 1)).after 0 o) none := by
    rw [hresult]
    exact ⟨rfl, fun hd => (by cases hd), fun hne => absurd rfl hne⟩
  have hsound : s.Sound := (run_reachable .opened hs).sound
  obtain ⟨s', hreturns, hwf⟩ := ((cacheServerProc_wellFormed_iff hsound ⟨_, htwo⟩
    (sends 2000 1)).2.1 0 o [] _ none hserves).mpr hkeeps
  exact ⟨s, o, _, s', ⟨_, htwo⟩, hserves, hresult, hreturns, hwf⟩

/-! ### A write that blocks -/

/-- `PUT a = b` on the first connection, which is kept alive. -/
def storesA : List Environment :=
  [connects 0, receives 0 [1, 0, 1, 2], receives 0 [1, 0, 1, 0, 0, 0], receives 0 [97, 98],
    sends 0 1]

/-- A second client asks for `a` up to the value, and the first one sends the header of a `PUT`. -/
def readsA : List Environment :=
  [connects 2000, sends 2000 0, receives 2000 [1, 0, 0, 1], sends 2000 0, receives 2000 [1, 0],
    sends 2000 0, receives 2000 [97], receives 2000 [1, 0, 1, 2]]

/-- The arguments of that `PUT` need the locked entry: the first connection is blocked, and it
stays the current one. -/
theorem blockedWrite_stays_scheduled : ∃ s s',
    Reachable ByteArea.decodeLE 64 (fun _ _ => 0) s ∧ s.Sound ∧ s.WellFormed ∧
      cacheServerProc 1 (receives 2000 [1, 0, 13, 0, 0, 0]) s = .ok s' ∧
      s'.currentConnection = some 0 ∧
      (s'.connections 0).map (fun c => c.state) = some .awaitingWriteUnblock ∧
      ¬ ∃ s', (∃ n, cacheServerProc n (receives 2000 [1, 0, 13, 0, 0, 0]) s = .ok s') ∧
        s'.WellFormed := by
  have hrun : (run 1 (storesA ++ readsA) smallServer).Gives fun s => s.Scheduled [0, 1] ∧
      (cacheServerProc 1 (receives 2000 [1, 0, 13, 0, 0, 0]) s).Gives fun s' =>
        s'.currentConnection = some 0 ∧
          (s'.connections 0).map (fun c => c.state) = some .awaitingWriteUnblock := by
    decide +kernel
  obtain ⟨s, hs, htwo, s', hs', hcur, hstate⟩ := hrun
  have hreach := run_reachable .opened hs
  refine ⟨s, s', hreach, hreach.sound, ⟨_, htwo⟩, hs', hcur, hstate, ?_⟩
  rintro ⟨s'', hreturns, xs, hready, -, hmem⟩
  cases Returns.unique cacheServerProc_steady hreturns ⟨1, hs'⟩
  obtain ⟨c, hc, hawaits⟩ := hready.ready 0 (hmem 0 hcur)
  rw [hc] at hstate
  have hblocked : c.state = .awaitingWriteUnblock := Option.some.inj hstate
  rw [hblocked] at hawaits
  cases hawaits

end CacheServer
