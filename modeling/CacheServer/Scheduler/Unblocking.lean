import CacheServer.Library.Fuel
import CacheServer.Scheduler.ActiveList
import CacheServer.Wire.Awaiting

/-!
# Rounds of the loops over blocked connections

`blocked_connections_add` returns only on an empty chain, since its loop never
advances, and only where malloc gives it a node. What `handle_lock_release_event` does is stated by `Wakes`, which names
the connections woken and says whether a retry failed.
-/

namespace CacheServer

/-- The links after those of `i` were reset. -/
def Links.detach (l : Links) (i : Nat) : Links :=
  ⟨fun j => if j = i then none else l.previous j, fun j => if j = i then none else l.next j⟩

theorem Links.detach_detached (l : Links) (i : Nat) : (l.detach i).detached i := by
  simp [Links.detach, Links.detached]

/-! ### The chain -/

section
variable {i : Nat} {e : Option Pointer} {t : BlockType} {l : Links} {b : BlockedConnections}

theorem blockedConnectionsAddLoop_some (j n : Nat) (lb r : Links × BlockedConnections) :
    blockedConnectionsAddLoop i e t (some j) n lb ≠ .ok r := by
  induction n generalizing lb with
  | zero =>
    intro h
    cases h
  | succ n ih =>
    obtain ⟨l, b⟩ := lb
    intro h
    rw [blockedConnectionsAddLoop] at h
    obtain ⟨node, -, h⟩ := Except.bind_eq_ok_iff.mp h
    split at h
    · obtain ⟨⟨l', node'⟩, -, h⟩ := Except.bind_eq_ok_iff.mp h
      exact ih _ h
    · exact ih _ h

/-- The chain with one more queue, of `i` alone, in front. -/
def BlockedConnections.push (b : BlockedConnections) (i : Nat) (e : Option Pointer) (t : BlockType) :
    BlockedConnections :=
  { b.update b.created (some ⟨b.head, some i, some i, e, 1, t⟩) with
    head := some b.created
    created := b.created + 1 }

theorem blockedConnectionsAdd_empty (h : b.head = none) (n : Nat) :
    blockedConnectionsAdd false (n + 1) i e t l b = .ok (l.detach i, b.push i e t) := by
  have hloop : blockedConnectionsAddLoop i e t b.head (n + 1) (l, b) = .ok (l, b) := by
    rw [h]
    rfl
  unfold blockedConnectionsAdd
  rw [hloop]
  rfl

/-- Without a node the first access to it is a fault. -/
theorem blockedConnectionsAdd_null (n : Nat) (r : Links × BlockedConnections) :
    blockedConnectionsAdd true n i e t l b ≠ .ok r := by
  intro h
  unfold blockedConnectionsAdd at h
  obtain ⟨lb, -, h⟩ := Except.bind_eq_ok_iff.mp h
  cases h

theorem blockedConnectionsAdd_returns {mallocFails : Bool} {r : Links × BlockedConnections} :
    Returns (fun n => blockedConnectionsAdd mallocFails n i e t l b) r ↔
      b.head = none ∧ mallocFails = false ∧ r = (l.detach i, b.push i e t) := by
  constructor
  · rintro ⟨n, h⟩
    cases mallocFails with
    | true => exact absurd h (blockedConnectionsAdd_null n r)
    | false =>
      have hadd := h
      unfold blockedConnectionsAdd at hadd
      obtain ⟨lb, hloop, -⟩ := Except.bind_eq_ok_iff.mp hadd
      cases hhead : b.head with
      | some j =>
        rw [hhead] at hloop
        exact absurd hloop (blockedConnectionsAddLoop_some j n _ _)
      | none =>
        cases n with
        | zero =>
          rw [hhead] at hloop
          cases hloop
        | succ n =>
          exact ⟨rfl, rfl, Except.ok.inj (h.symm.trans (blockedConnectionsAdd_empty hhead n))⟩
  · rintro ⟨hhead, rfl, rfl⟩
    exact ⟨1, blockedConnectionsAdd_empty hhead 0⟩

theorem blockedConnectionsAdd_steady {mallocFails : Bool} :
    Steady fun n => blockedConnectionsAdd mallocFails n i e t l b := by
  intro n r h
  obtain ⟨hhead, rfl, rfl⟩ := blockedConnectionsAdd_returns.mp ⟨n, h⟩
  exact blockedConnectionsAdd_empty hhead n

theorem blockedConnectionsPopLoop_steady (p j : Option Nat) :
    Steady fun n => blockedConnectionsPopLoop e t l b n p j := by
  intro n
  induction n generalizing p j with
  | zero =>
    intro r h
    cases h
  | succ n ih =>
    intro r h
    cases j with
    | none => exact h
    | some j =>
      simp only [blockedConnectionsPopLoop] at h ⊢
      obtain ⟨node, hnode, h⟩ := Except.bind_eq_ok_iff.mp h
      refine Except.bind_eq_ok_iff.mpr ⟨node, hnode, ?_⟩
      split at h
      · rename_i hmatch
        rw [if_pos hmatch]
        exact h
      · rename_i hmatch
        rw [if_neg hmatch]
        exact ih _ _ _ h

end

/-! ### The loop of handle_lock_release_event -/

namespace Server

variable {s s' : Server} {i current : Nat} {t : BlockType} {e : Option Pointer}

theorem addBlocked_steady : Steady fun n => s.addBlocked n i t := by
  intro n r h
  unfold addBlocked at h ⊢
  obtain ⟨c, hc, h⟩ := Except.bind_eq_ok_iff.mp h
  obtain ⟨lb, hadd, h⟩ := Except.bind_eq_ok_iff.mp h
  exact Except.bind_eq_ok_iff.mpr
    ⟨c, hc, Except.bind_eq_ok_iff.mpr ⟨lb, blockedConnectionsAdd_steady n lb hadd, h⟩⟩

theorem addBlocked_returns :
    Returns (fun n => s.addBlocked n i t) s' ↔
      ∃ c, s.connections i = some c ∧
        (s.blocked.head = none ∧ s.world.system.answers.queueMallocFails = false) ∧
        s' = { s with links := s.links.detach i, blocked := s.blocked.push i c.entryHeader t } := by
  constructor
  · rintro ⟨n, h⟩
    unfold addBlocked deref at h
    obtain ⟨c, hc, h⟩ := Except.bind_eq_ok_iff.mp h
    obtain ⟨lb, hadd, h⟩ := Except.bind_eq_ok_iff.mp h
    obtain ⟨hhead, hnode, rfl⟩ := blockedConnectionsAdd_returns.mp ⟨n, hadd⟩
    cases hci : s.connections i with
    | none => simp [hci] at hc
    | some c' =>
      rw [hci] at hc
      cases hc
      cases h
      exact ⟨c, rfl, ⟨hhead, hnode⟩, rfl⟩
  · rintro ⟨c, hc, ⟨hhead, hnode⟩, rfl⟩
    obtain ⟨n, hn⟩ := blockedConnectionsAdd_returns.mpr
      (⟨hhead, hnode, rfl⟩ : s.blocked.head = none ∧ s.world.system.answers.queueMallocFails = false ∧
        (s.links.detach i, s.blocked.push i c.entryHeader t) = (s.links.detach i, _))
    refine ⟨n, ?_⟩
    simp only [addBlocked, deref, hc]
    exact Except.bind_eq_ok_iff.mpr ⟨c, rfl, Except.bind_eq_ok_iff.mpr ⟨_, hn, rfl⟩⟩

theorem addBlocked_zero (s' : Server) : s.addBlocked 0 i t ≠ .ok s' := by
  intro h
  unfold addBlocked blockedConnectionsAdd at h
  obtain ⟨c, -, h⟩ := Except.bind_eq_ok_iff.mp h
  cases h

theorem popBlocked_steady : Steady fun n => s.popBlocked n e t := by
  intro n r h
  unfold popBlocked blockedConnectionsPop at h ⊢
  obtain ⟨cb, hpop, h⟩ := Except.bind_eq_ok_iff.mp h
  exact Except.bind_eq_ok_iff.mpr ⟨cb, blockedConnectionsPopLoop_steady _ _ n cb hpop, h⟩

end Server

/-- The rounds of the loop for the current connection: the connections woken, the server
that is left, and the type of the retry that failed, if one did. -/
inductive Wakes (current : Nat) (type : BlockType) :
    Server → List Nat → Server → Option BlockType → Prop
  | done {s s' : Server} {c : Connection} (deref : s.connections current = some c)
      (pop : Returns (fun n => s.popBlocked n c.entryHeader type) (none, s')) :
      Wakes current type s [] s' none
  | refused {s s₁ s' : Server} {c : Connection} {i : Nat} {result : ConnectionResult}
      (deref : s.connections current = some c)
      (pop : Returns (fun n => s.popBlocked n c.entryHeader type) (some i, s₁))
      (retry : s₁.call i (unblockFunc type) = .ok (result, s')) (failed : result ≠ .success) :
      Wakes current type s [] s' (some type)
  | woken {s s₁ s₂ s₃ s' : Server} {c : Connection} {i : Nat} {is : List Nat}
      {refusal : Option BlockType} (deref : s.connections current = some c)
      (pop : Returns (fun n => s.popBlocked n c.entryHeader type) (some i, s₁))
      (retry : s₁.call i (unblockFunc type) = .ok (.success, s₂))
      (append : s₂.append i = .ok s₃) (rest : Wakes current type s₃ is s' refusal) :
      Wakes current type s (i :: is) s' refusal

/-- The event that wakes connections of a type. -/
def BlockType.event : BlockType → EntryHeaderLockEvent
  | .read => .readsUnblocked
  | .write => .writesUnblocked

/-- `Wakes` for the event that the current connection holds. -/
inductive Handles (current : Nat) : Server → List Nat → Server → Option BlockType → Prop
  | quiet {s : Server} {c : Connection} (deref : s.connections current = some c)
      (event : c.lockReleaseEvent = .none) : Handles current s [] s none
  | unblocks {s s' : Server} {c : Connection} {is : List Nat} {refusal : Option BlockType}
      (type : BlockType) (deref : s.connections current = some c)
      (event : c.lockReleaseEvent = type.event) (wakes : Wakes current type s is s' refusal) :
      Handles current s is s' refusal

/-- A failed retry is followed by `blocked_connections_add` of the current connection. -/
def Requeues (current : Nat) : Option BlockType → Server → Server → Prop
  | none, s, s' => s' = s
  | some type, s, s' => Returns (fun n => s.addBlocked n current type) s'

section
variable {s s₁ s' : Server} {current : Nat} {type : BlockType} {is : List Nat}
  {refusal : Option BlockType} {u : Option Nat} {c : Connection}

/-- A round of the loop after its call of `blocked_connections_pop`. -/
def retryPopped (current : Nat) (type : BlockType) (fuel : Nat) (unblocked : Option Nat)
    (s : Server) : Except Fault Server :=
  match unblocked with
  | none => .ok s
  | some i => s.call i (unblockFunc type) >>= fun r =>
    if r.1 ≠ .success then r.2.addBlocked (fuel + 1) current type
    else r.2.append i >>= fun s => unblockLoop current type fuel s

theorem unblockLoop_succ (n : Nat) (hc : s.connections current = some c) :
    unblockLoop current type (n + 1) s =
      s.popBlocked (n + 1) c.entryHeader type >>= fun u => retryPopped current type n u.1 u.2 := by
  simp only [unblockLoop, Server.deref, hc]
  rfl

theorem unblockLoop_steady : Steady fun n => unblockLoop current type n s := by
  intro n
  induction n generalizing s with
  | zero =>
    intro r h
    cases h
  | succ n ih =>
    intro r h
    cases hc : s.connections current with
    | none =>
      simp only [unblockLoop, Server.deref, hc] at h
      cases h
    | some c =>
      simp only [unblockLoop_succ _ hc] at h ⊢
      obtain ⟨⟨u, s₁⟩, hpop, h⟩ := Except.bind_eq_ok_iff.mp h
      refine Except.bind_eq_ok_iff.mpr ⟨(u, s₁), Server.popBlocked_steady (n + 1) _ hpop, ?_⟩
      cases u with
      | none => exact h
      | some i =>
        obtain ⟨⟨result, s₂⟩, hretry, h⟩ := Except.bind_eq_ok_iff.mp h
        refine Except.bind_eq_ok_iff.mpr ⟨(result, s₂), hretry, ?_⟩
        simp only at h ⊢
        split at h
        · rename_i hfailed
          rw [if_pos hfailed]
          exact Server.addBlocked_steady (n + 1) _ h
        · rename_i hsuccess
          rw [if_neg hsuccess]
          obtain ⟨s₃, happend, h⟩ := Except.bind_eq_ok_iff.mp h
          exact Except.bind_eq_ok_iff.mpr ⟨s₃, happend, ih r h⟩

theorem retryPopped_steady : Steady fun n => retryPopped current type n u s := by
  cases u with
  | none => exact Steady.const _
  | some i =>
    refine Steady.bind (Steady.const _) fun r => ?_
    by_cases hfailed : r.1 ≠ .success
    · simp only [if_pos hfailed]
      exact fun n => Server.addBlocked_steady (n + 1)
    · simp only [if_neg hfailed]
      exact Steady.bind (Steady.const _) fun s₃ => unblockLoop_steady

theorem unblockLoop_returns (hc : s.connections current = some c)
    (hpop : Returns (fun n => s.popBlocked n c.entryHeader type) (u, s₁)) :
    Returns (fun n => unblockLoop current type n s) s' ↔
      Returns (fun n => retryPopped current type n u s₁) s' := by
  rw [Returns.succ_iff (fun _ h => by cases h)]
  simp only [unblockLoop_succ _ hc]
  rw [Returns.bind_iff (f := fun n => s.popBlocked (n + 1) c.entryHeader type)
    (g := fun u n => retryPopped current type n u.1 u.2)
    (fun n => Server.popBlocked_steady (n + 1)) (fun _ => retryPopped_steady)]
  have hpop' := (Returns.succ_iff (fun _ h => by cases h)).mp hpop
  constructor
  · rintro ⟨v, hv, h⟩
    cases Returns.unique (fun n => Server.popBlocked_steady (n + 1)) hv hpop'
    exact h
  · exact fun h => ⟨_, hpop', h⟩

theorem retryPopped_failed {i : Nat} {result : ConnectionResult}
    (hretry : s.call i (unblockFunc type) = .ok (result, s₁)) (hfailed : result ≠ .success) :
    Returns (fun n => retryPopped current type n (some i) s) s' ↔
      Returns (fun n => s₁.addBlocked n current type) s' := by
  rw [Returns.succ_iff (f := fun n => s₁.addBlocked n current type) Server.addBlocked_zero]
  have heq : ∀ n, retryPopped current type n (some i) s = s₁.addBlocked (n + 1) current type := by
    intro n
    rw [retryPopped, hretry]
    exact if_pos hfailed
  simp only [heq]

theorem retryPopped_woken {i : Nat} {s₂ s₃ : Server}
    (hretry : s.call i (unblockFunc type) = .ok (.success, s₂)) (happend : s₂.append i = .ok s₃) :
    Returns (fun n => retryPopped current type n (some i) s) s' ↔
      Returns (fun n => unblockLoop current type n s₃) s' := by
  have heq : ∀ n, retryPopped current type n (some i) s = unblockLoop current type n s₃ := by
    intro n
    rw [retryPopped, hretry]
    change s₂.append i >>= _ = _
    rw [happend]
    rfl
  simp only [heq]

theorem Wakes.unblockLoop_returns (h : Wakes current type s is s₁ refusal) :
    Returns (fun n => unblockLoop current type n s) s' ↔ Requeues current refusal s₁ s' := by
  induction h with
  | done deref pop =>
    rw [CacheServer.unblockLoop_returns deref pop]
    exact Returns.const_iff.trans ⟨fun h => (Except.ok.inj h).symm, fun h => congrArg Except.ok h.symm⟩
  | refused deref pop retry failed =>
    rw [CacheServer.unblockLoop_returns deref pop, retryPopped_failed retry failed]
    rfl
  | woken deref pop retry append rest ih =>
    rw [CacheServer.unblockLoop_returns deref pop, retryPopped_woken retry append, ih]

theorem handleLockReleaseEvent_eq (hc : s.connections current = some c) (n : Nat) :
    handleLockReleaseEvent n current s = match c.lockReleaseEvent with
      | .none => .ok s
      | .readsUnblocked => unblockLoop current .read n s
      | .writesUnblocked => unblockLoop current .write n s
      | .blocked => .error .assertion := by
  unfold handleLockReleaseEvent Server.deref
  rw [hc]
  rfl

theorem handleLockReleaseEvent_event (hc : s.connections current = some c)
    (he : c.lockReleaseEvent = type.event) (n : Nat) :
    handleLockReleaseEvent n current s = unblockLoop current type n s := by
  rw [handleLockReleaseEvent_eq hc, he]
  cases type <;> rfl

theorem handleLockReleaseEvent_steady : Steady fun n => handleLockReleaseEvent n current s := by
  unfold handleLockReleaseEvent
  refine Steady.bind (Steady.const _) fun c => ?_
  cases c.lockReleaseEvent with
  | none | blocked => exact Steady.const _
  | readsUnblocked | writesUnblocked => exact unblockLoop_steady

theorem Handles.returns (h : Handles current s is s₁ refusal) :
    Returns (fun n => handleLockReleaseEvent n current s) s' ↔ Requeues current refusal s₁ s' := by
  cases h with
  | quiet deref event =>
    have heq : ∀ n, handleLockReleaseEvent n current s = .ok s := by
      intro n
      rw [handleLockReleaseEvent_eq deref, event]
    simp only [heq]
    exact Returns.const_iff.trans ⟨fun h => (Except.ok.inj h).symm, fun h => congrArg Except.ok h.symm⟩
  | unblocks type deref event wakes =>
    simp only [handleLockReleaseEvent_event deref event]
    exact wakes.unblockLoop_returns

end

end CacheServer
