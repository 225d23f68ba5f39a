import CacheServer.Scheduler.Waking
import CacheServer.Sharing.Interleaving

/-!
# Locked entries and writes in progress

In careful runs the lock count of every entry is the number of connections that
have locked it, a locked entry stays as it is, and a write in progress has its
region for itself.
-/

namespace CacheServer
open EntryHeader

/-- `key_size`, `value_size`, key and value of an entry are the same. -/
structure Unchanged (p : Pointer) (m m' : Memory) : Prop where
  keySize : keySize m' p = keySize m p
  valueSize : valueSize m' p = valueSize m p
  key : key m' p = key m p
  value : value m' p = value m p

theorem SameEntry.unchanged {e : Slot} {m m' : Memory} (h : SameEntry e m m') (hh : HeaderAt m e) :
    Unchanged e.pointer m m' :=
  ⟨(h.header hh).keySize.trans hh.keySize.symm, (h.header hh).valueSize.trans hh.valueSize.symm,
    h.key hh, h.value hh⟩

namespace Connections

def live (s : Connections) : List Slot := liveEntries s.world.store

/-- The lock counts are exact, and what is locked is a live entry. -/
structure LocksExact (s : Connections) : Prop where
  counted : ∀ e ∈ s.live, locks s.world.memory e.pointer = s.holders e.pointer
  held : ∀ i p, s.lock i = some p → 0 < locks s.world.memory p ∧ ∃ e ∈ s.live, e.pointer = p

/-- The regions that are being filled are live entries, and share no byte. -/
structure WritesExclusive (s : Connections) : Prop where
  live : ∀ i e, s.region i = some e → e ∈ s.live
  apart : ∀ i j e x, i ≠ j → s.region i = some e → s.region j = some x → e.Apart x

/-- The careful runs from `s` on in which the entry is locked before each step. -/
inductive LockedRun (p : Pointer) (s : Connections) : Connections → Prop
  | refl : LockedRun p s s
  | stepped {s₁ s₂ : Connections} (a : Action) (run : LockedRun p s s₁) (locked : 0 < s₁.holders p)
      (careful : s₁.Careful a) (step : s₁.step a = .ok s₂) : LockedRun p s s₂

section
variable {s s' : Connections} {es : List Slot} {a : Action} {e : Slot} {i : Nat}
  {call : ConnectionCall}

theorem Owned.live_eq (h : s.Owned es) : s.live = es := (h.base 0).ring.liveEntries_eq

theorem Owned.locks_eq (h : s.Owned es) (he : e ∈ es) :
    locks s.world.memory e.pointer = s.holders e.pointer := by
  rw [(h.base 0).locks e he, holders_eq h.fresh 0]

theorem Owned.held (h : s.Owned es) {p : Pointer} (hl : s.lock i = some p) :
    ∃ e ∈ es, e.pointer = p ∧ ∀ j, s.region j ≠ some e := by
  obtain ⟨e, he, hp, hF, hr⟩ := (h.base i).held p (Or.inr hl)
  refine ⟨e, he, hp, fun j hj => ?_⟩
  by_cases hji : j = i
  · subst hji
    exact hr hj
  · exact hF ⟨j, lt_of_region h.fresh hj, hji, hj⟩

theorem Owned.locksExact (h : s.Owned es) : s.LocksExact := by
  refine ⟨fun e he => ?_, fun i p hl => ?_⟩
  · rw [h.live_eq] at he
    exact h.locks_eq he
  · obtain ⟨e, he, rfl, -⟩ := h.held hl
    refine ⟨?_, e, ?_, rfl⟩
    · rw [h.locks_eq he]
      exact (holders_pos h.fresh).mpr ⟨i, hl⟩
    · rw [h.live_eq]
      exact he

theorem Owned.writesExclusive (h : s.Owned es) : s.WritesExclusive := by
  have hmem : ∀ i e, s.region i = some e → e ∈ es := fun i e he => ((h.base i).fills e he).1
  refine ⟨fun i e he => ?_, fun i j e x hne he hx => ?_⟩
  · rw [h.live_eq]
    exact hmem i e he
  · rcases (h.base 0).apart (hmem i e he) (hmem j x hx) with heq | hapart
    · subst heq
      exact absurd (h.distinct i j e he hx) hne
    · exact hapart

/-- No connection fills an entry while another one has locked it. -/
theorem Owned.filledBy_ne (h : s.Owned es) (he : e ∈ es) (hpos : 0 < s.holders e.pointer) (a : Action) :
    s.filledBy a ≠ some e := by
  obtain ⟨i, hi⟩ := (holders_pos h.fresh).mp hpos
  obtain ⟨x, hx, hp, hnobody⟩ := h.held hi
  cases (h.base 0).eq_of_pointer hx he hp
  cases a with
  | accept | answer => intro hr; cases hr
  | call j call => exact hnobody j

theorem Owned.locked_step (h : s.Owned es) (he : e ∈ es) (hpos : 0 < s.holders e.pointer)
    (careful : s.Careful a) (hstep : s.step a = .ok s') :
    e ∈ s'.live ∧ SameEntry e s.world.memory s'.world.memory := by
  obtain ⟨es', howned, hkeeps⟩ := h.step careful hstep
  obtain ⟨hmem, hsame⟩ := hkeeps e he (h.not_evicts careful he (Or.inl hpos))
  refine ⟨?_, hsame (h.filledBy_ne he hpos a)⟩
  rw [howned.live_eq]
  exact hmem

theorem LockedRun.kept (hs : s.Owned es) (he : e ∈ es) (run : LockedRun e.pointer s s') :
    (∃ es', s'.Owned es') ∧ e ∈ s'.live ∧ SameEntry e s.world.memory s'.world.memory := by
  induction run with
  | refl =>
    refine ⟨⟨es, hs⟩, ?_, SameEntry.refl e _⟩
    rw [hs.live_eq]
    exact he
  | stepped a run locked careful step ih =>
    obtain ⟨⟨es₁, howned⟩, hmem, hsame⟩ := ih
    rw [howned.live_eq] at hmem
    obtain ⟨hmem', hsame'⟩ := howned.locked_step hmem locked careful step
    obtain ⟨es₂, howned', -⟩ := howned.step careful step
    exact ⟨⟨es₂, howned'⟩, hmem', hsame.trans hsame'⟩

/-- A step of the connection that fills a region. -/
theorem Owned.fills (h : s.Owned es) (hr : s.region i = some e) (careful : s.Careful (.call i call))
    (hstep : s.step (.call i call) = .ok s') :
    (∀ x ∈ s.live, x ≠ e → x ∈ s'.live ∧ ∀ b, x.offset ≤ b → b < x.stop →
      s'.world.memory .ring b = s.world.memory .ring b) ∧
    (s'.region i = some e ∨ s'.get i = none ∨ (s'.get i).map (·.state) = some .sendingHeader) := by
  obtain ⟨c, o, hc, hrun, rfl⟩ := step_call hstep
  obtain ⟨hvalid, hplaced⟩ := h.connection i c hc
  have hbase := h.base i
  rw [lock_eq hc, region_eq hc] at hbase
  have hregion : c.region = some e := (region_eq hc).symm.trans hr
  obtain ⟨hbytes, hend⟩ := call.fills hvalid hplaced (careful c hc) hbase hrun hregion
  obtain ⟨es', howned, hkeeps⟩ := h.step careful hstep
  rw [h.live_eq, howned.live_eq]
  refine ⟨fun x hx hne => ⟨(hkeeps x hx ?_).1, hbytes x hx hne⟩, ?_⟩
  · rintro ⟨c', hc', hevicts⟩
    cases hc.symm.trans hc'
    cases hregion.symm.trans (hevicts.free hvalid).2
  · rw [after_region_self]
    have hget : (s.after i o).get i = if o.result = .disconnect then none else some o.connection :=
      if_pos rfl
    rw [hget]
    rcases hend with hkept | hclosed | hdone
    · exact Or.inl hkept
    · exact Or.inr (Or.inl (if_pos hclosed))
    · split
      · exact Or.inr (Or.inl rfl)
      · exact Or.inr (Or.inr (congrArg some hdone))

/-- A step of another one. -/
theorem Owned.spares (h : s.Owned es) (hr : s.region i = some e) (hother : ∀ call, a ≠ .call i call)
    (careful : s.Careful a) (hstep : s.step a = .ok s') :
    s'.region i = some e ∧ SameEntry e s.world.memory s'.world.memory := by
  have he := ((h.base i).fills e hr).1
  obtain ⟨es', howned, hkeeps⟩ := h.step careful hstep
  obtain ⟨-, hsame⟩ := hkeeps e he (h.not_evicts careful he (Or.inr ⟨i, hr⟩))
  have hne : s.filledBy a ≠ some e := by
    cases a with
    | accept | answer => intro hf; cases hf
    | call j call =>
      intro hf
      have hji := h.distinct j i e hf hr
      exact hother call (by rw [hji])
  refine ⟨?_, hsame hne⟩
  cases a with
  | accept =>
    cases hstep
    rw [← hr]
    refine congrArg (Option.bind · Connection.region) (accept_get ?_)
    exact (lt_of_region h.fresh hr).ne
  | answer =>
    cases hstep
    exact hr
  | call j call =>
    obtain ⟨c, o, -, -, rfl⟩ := step_call hstep
    rw [after_region fun hij => hother call (by rw [hij]), hr]

end

end Connections

section
variable {hash : List UInt8 → Nat} {capacityBytes : Nat} {memory : Memory} {s : Connections}

/-- Read locks are exact and protect the reader. -/
theorem locks_exact (hcap : capacityBytes < 2 ^ 64) (run : CarefulRun hash capacityBytes memory s) :
    s.LocksExact ∧ ∀ e ∈ s.live, ∀ s', Connections.LockedRun e.pointer s s' →
      e ∈ s'.live ∧ Unchanged e.pointer s.world.memory s'.world.memory := by
  obtain ⟨es, howned⟩ := run.owned hcap
  refine ⟨howned.locksExact, fun e he s' hlocked => ?_⟩
  rw [howned.live_eq] at he
  obtain ⟨-, hmem, hsame⟩ := hlocked.kept howned he
  exact ⟨hmem, hsame.unchanged ((howned.base 0).header he)⟩

/-- A write in progress has its region for itself, until the connection answers the request or is
closed; filling it changes no other entry. -/
theorem writes_exclusive (hcap : capacityBytes < 2 ^ 64)
    (run : CarefulRun hash capacityBytes memory s) :
    s.WritesExclusive ∧ ∀ i e, s.region i = some e → ∀ a s', s.Careful a → s.step a = .ok s' →
      ((∀ call, a ≠ .call i call) →
        s'.region i = some e ∧ SameEntry e s.world.memory s'.world.memory) ∧
      ∀ call, a = .call i call →
        (∀ x ∈ s.live, x ≠ e → x ∈ s'.live ∧ ∀ b, x.offset ≤ b → b < x.stop →
          s'.world.memory .ring b = s.world.memory .ring b) ∧
        (s'.region i = some e ∨ s'.get i = none ∨
          (s'.get i).map (·.state) = some .sendingHeader) := by
  obtain ⟨es, howned⟩ := run.owned hcap
  refine ⟨howned.writesExclusive, fun i e hr a s' careful hstep => ⟨fun hother => ?_, ?_⟩⟩
  · exact howned.spares hr hother careful hstep
  · rintro call rfl
    exact howned.fills hr careful hstep

end

/-! ### Runs of one and two clients -/

/-- The state after some actions, if they all meet the guard. -/
def guardedly (guard : Connections → Action → Prop) [∀ s a, Decidable (guard s a)] :
    List Action → Connections → Option Connections
  | [], s => some s
  | a :: as, s =>
    if guard s a then
      match s.step a with
      | .ok s' => guardedly guard as s'
      | .error _ => none
    else none

/-- What every guarded step keeps holds after the actions. -/
theorem guardedly_keeps {guard : Connections → Action → Prop} [∀ s a, Decidable (guard s a)]
    {P : Connections → Prop} (hstep : ∀ s a s', P s → guard s a → s.step a = .ok s' → P s')
    {as : List Action} {s s' : Connections} (hs : P s) (h : guardedly guard as s = some s') : P s' := by
  induction as generalizing s with
  | nil =>
    cases h
    exact hs
  | cons a as ih =>
    rw [guardedly] at h
    split at h
    · rename_i hguarded
      split at h
      · rename_i s₁ hs₁
        exact ih (hstep s a s₁ hs hguarded hs₁) h
      · cases h
    · cases h

theorem guardedly_run {guard : Connections → Action → Prop} [∀ s a, Decidable (guard s a)]
    {hash : List UInt8 → Nat} {capacityBytes : Nat} {memory : Memory} {as : List Action}
    {s s' : Connections} (run : GuardedRun guard hash capacityBytes memory s)
    (h : guardedly guard as s = some s') : GuardedRun guard hash capacityBytes memory s' :=
  guardedly_keeps (fun _ a _ run guarded step => .stepped a run guarded step) run h

theorem guardedly_locked {p : Pointer} {as : List Action} {s s' : Connections}
    (h : guardedly (fun s a => 0 < s.holders p ∧ s.Careful a) as s = some s') :
    s.LockedRun p s' :=
  guardedly_keeps (fun _ a _ run guarded step => .stepped a run guarded.1 guarded.2 step) .refl h

def receiving (i : Nat) (bytes : List UInt8) : Action := .call i (.proc ⟨bytes, false, 0, false⟩)

def sending (i count : Nat) : Action := .call i (.proc ⟨[], false, count, false⟩)

def smallConnections : Connections := connectionsOpen ByteArea.decodeLE 64 fun _ _ => 0

/-- `PUT a = b` and the key of a `GET a` on one connection, and the header and arguments of a `PUT`
on a second one. -/
def sharesRing : List Action :=
  [.accept 5 (fun _ => 0) fun _ => 0, receiving 0 [1, 0, 1, 2], receiving 0 [1, 0, 1, 0, 0, 0],
    receiving 0 [97, 98], sending 0 1, .accept 6 (fun _ => 0) fun _ => 0, receiving 0 [1, 0, 1, 1],
    receiving 1 [1, 0, 0, 2], receiving 0 [1, 0], receiving 1 [1, 0, 1, 0, 0, 0], receiving 0 [97]]

theorem sharesRing_run : ∃ s, CarefulRun ByteArea.decodeLE 64 (fun _ _ => 0) s ∧
    s.lock 0 = some (ringPointer 0) ∧ s.region 1 = some ⟨18, 1, 1⟩ := by
  have hrun : ∃ s ∈ guardedly Connections.Careful sharesRing smallConnections,
      s.lock 0 = some (ringPointer 0) ∧ s.region 1 = some ⟨18, 1, 1⟩ := by
    decide +kernel
  obtain ⟨s, hs, hholds⟩ := hrun
  exact ⟨s, guardedly_run .opened hs, hholds⟩

/-- The second client stores `a` anew while the first one is sent the value it had. -/
theorem locks_exact_shared : ∃ s s', CarefulRun ByteArea.decodeLE 64 (fun _ _ => 0) s ∧
    s.lock 0 = some (ringPointer 0) ∧ s.LocksExact ∧ s.LockedRun (ringPointer 0) s' ∧
    ⟨0, 1, 1⟩ ∈ s'.live ∧ Unchanged (ringPointer 0) s.world.memory s'.world.memory := by
  have hrun : ∃ s ∈ guardedly Connections.Careful sharesRing smallConnections,
      s.lock 0 = some (ringPointer 0) ∧ (⟨0, 1, 1⟩ : Slot) ∈ s.live ∧
        (guardedly (fun s a => 0 < s.holders (ringPointer 0) ∧ s.Careful a)
          [receiving 1 [97, 99], sending 1 1, sending 0 5] s).isSome = true := by
    decide +kernel
  obtain ⟨s, hs, hlock, hlive, hlater⟩ := hrun
  obtain ⟨s', hs'⟩ := Option.isSome_iff_exists.mp hlater
  have run : CarefulRun ByteArea.decodeLE 64 (fun _ _ => 0) s := guardedly_run .opened hs
  have hlocked : s.LockedRun (ringPointer 0) s' := guardedly_locked hs'
  obtain ⟨hexact, hprotects⟩ := locks_exact (by decide) run
  exact ⟨s, s', run, hlock, hexact, hlocked, hprotects _ hlive s' hlocked⟩

/-- A step of the first client, and one of the second, which fills the region. -/
theorem writes_exclusive_shared : ∃ s s₁ s₂, CarefulRun ByteArea.decodeLE 64 (fun _ _ => 0) s ∧
    s.region 1 = some ⟨18, 1, 1⟩ ∧ s.WritesExclusive ∧
    s.step (sending 0 5) = .ok s₁ ∧ s₁.region 1 = some ⟨18, 1, 1⟩ ∧
    SameEntry ⟨18, 1, 1⟩ s.world.memory s₁.world.memory ∧
    s.step (receiving 1 [97]) = .ok s₂ ∧ (⟨0, 1, 1⟩ : Slot) ∈ s₂.live ∧
    s₂.region 1 = some ⟨18, 1, 1⟩ := by
  have hrun : ∃ s ∈ guardedly Connections.Careful sharesRing smallConnections,
      s.region 1 = some ⟨18, 1, 1⟩ ∧ (⟨0, 1, 1⟩ : Slot) ∈ s.live ∧
        s.Careful (sending 0 5) ∧ (s.step (sending 0 5)).Gives (fun _ => True) ∧
        s.Careful (receiving 1 [97]) ∧ (s.step (receiving 1 [97])).Gives fun s₂ =>
          (s₂.get 1).map (·.state) = some .receivingBody := by
    decide +kernel
  obtain ⟨s, hs, hregion, hlive, hcareful₁, ⟨s₁, hs₁, -⟩, hcareful₂, s₂, hs₂, hstate⟩ := hrun
  have run : CarefulRun ByteArea.decodeLE 64 (fun _ _ => 0) s := guardedly_run .opened hs
  obtain ⟨hexclusive, hsteps⟩ := writes_exclusive (by decide) run
  obtain ⟨hother, -⟩ := hsteps 1 _ hregion _ s₁ hcareful₁ hs₁
  obtain ⟨hkept, hsame⟩ := hother fun call h => by cases h
  obtain ⟨-, howner⟩ := hsteps 1 _ hregion _ s₂ hcareful₂ hs₂
  obtain ⟨hlives, hfilled | hclosed | hdone⟩ := howner _ rfl
  · exact ⟨s, s₁, s₂, run, hregion, hexclusive, hs₁, hkept, hsame, hs₂,
      (hlives _ hlive (by decide)).1, hfilled⟩
  · rw [hclosed] at hstate
    cases hstate
  · rw [hdone] at hstate
    cases hstate

/-- `PUT d` with a value of 13 bytes, in the place of `a` and `b`, and then `GET b`. -/
def readsGone : List Environment :=
  storesA ++ storesB ++ [receives 0 [1, 0, 1, 2], receives 0 [1, 0, 13, 0, 0, 0],
    receives 0 [100, 1, 2, 3, 4, 5, 6, 7, 8, 9, 2, 0, 0, 0], sends 0 1,
    receives 0 [1, 0, 0, 1], receives 0 [1, 0], receives 0 [98]]

/- The index still leads to where `b` was: one client locks a place inside the entry of `d`. -/
theorem lock_outside_entries : ∃ s, Server.Reachable ByteArea.decodeLE 64 (fun _ _ => 0) s ∧
    ¬ (s.view []).LocksExact := by
  have hrun : (run 1 readsGone smallServer).Gives fun s =>
      (s.view []).lock 0 = some (ringPointer 18) ∧
        ∀ e ∈ (s.view []).live, e.pointer ≠ ringPointer 18 := by
    decide +kernel
  obtain ⟨s, hs, hlock, hnone⟩ := hrun
  refine ⟨s, run_reachable .opened hs, fun h => ?_⟩
  obtain ⟨-, e, he, hp⟩ := h.held 0 _ hlock
  exact hnone e he hp

/-- Two clients send the header and arguments of a `PUT` of 14 bytes. -/
def writesTwice : List Environment :=
  [connects 0, receives 0 [1, 0, 1, 2], receives 0 [1, 0, 13, 0, 0, 0], connects 2000, sends 2000 0,
    receives 2000 [1, 0, 1, 2], sends 2000 0, receives 2000 [1, 0, 13, 0, 0, 0]]

/- The second allocation evicts the entry that is being filled, and hands out the same region. -/
theorem region_handed_out_twice : ∃ s, Server.Reachable ByteArea.decodeLE 64 (fun _ _ => 0) s ∧
    ¬ (s.view []).WritesExclusive := by
  have hrun : (run 1 writesTwice smallServer).Gives fun s =>
      (s.view []).region 0 = some ⟨0, 1, 13⟩ ∧ (s.view []).region 1 = some ⟨0, 1, 13⟩ := by
    decide +kernel
  obtain ⟨s, hs, hfirst, hsecond⟩ := hrun
  refine ⟨s, run_reachable .opened hs, fun h => ?_⟩
  have hapart := h.apart 0 1 _ _ (by decide) hfirst hsecond
  simp [Slot.Apart, Slot.stop, Slot.size] at hapart

end CacheServer
