import CacheServer.Scheduler.Queues
import CacheServer.Scheduler.Schedule

/-!
# Waking the connections that wait for a lock

`Server.Placed` says that every open connection is in one place: the active list
or one queue. After the current connection released its lock,
handle_lock_release_event restores that, with every waiter moved, exactly when
the queues of the lock are the first ones of the chain and every retry succeeds.
-/

namespace CacheServer

/-! ### Places -/

namespace Server

/-- Every open connection is in one place: in the list `l`, not blocked, or in one of the queues
`qs`, blocked on its entry and type. -/
structure Placed (s : Server) (l : List Nat) (qs : List Queue) : Prop where
  active : s.Active l
  chain : ChainSegment s.blocked s.blocked.head qs none
  nodes : (qs.map Queue.node).Nodup
  some : ∀ q ∈ qs, q.members ≠ []
  linked : ∀ q ∈ qs, ForwardLinked s.links.next q.members none
  once : (l ++ qs.flatMap Queue.members).Nodup
  opened : ∀ i, (s.connections i).isSome ↔ i ∈ l ++ qs.flatMap Queue.members
  ready : ∀ i ∈ l, ∀ c, s.connections i = .some c → c.state.awaits = none
  waits : ∀ q ∈ qs, ∀ i ∈ q.members, ∀ c, s.connections i = .some c →
    c.state.awaits = .some q.type ∧ c.entryHeader = q.entry

/-- Whether a connection that asks for this lock would be blocked. -/
def StillHeld (m : Memory) (e : Pointer) : BlockType → Prop
  | .read => (entryHeaderAcquireLock m e).1 = .blocked
  | .write => EntryHeader.locks m e ≠ 0

/-- What waking the connections that wait for `e` should leave of a server with the places `l`
and `qs`: again every connection in one place, the active ones and those that wait for something
else where they were, the waiters where their retry puts them, and none left without cause. -/
structure Rehomed (s' : Server) (l : List Nat) (qs : List Queue) (e : Pointer) (t : BlockType)
    (l' : List Nat) (qs' : List Queue) : Prop where
  placed : s'.Placed l' qs'
  active : ∀ i ∈ l, i ∈ l'
  queued : ∀ q ∈ qs, ¬ q.Matches (.some e) t → ∀ i ∈ q.members,
    ∃ q' ∈ qs', q'.Matches q.entry q.type ∧ i ∈ q'.members
  retried : ∀ q ∈ qs, q.Matches (.some e) t → ∀ i ∈ q.members, ∃ c, s'.connections i = .some c ∧
    ((c.state.awaits = none ∧ i ∈ l') ∨
      ∃ q' ∈ qs', i ∈ q'.members ∧ c.state.awaits = .some q'.type ∧ c.entryHeader = q'.entry)
  released : ∀ q' ∈ qs', q'.Matches (.some e) t → StillHeld s'.world.memory e t

/-- Every connection of the list succeeds when it is retried after those before it. -/
def RetriesSucceed (t : BlockType) : List Nat → Server → Prop
  | [], _ => True
  | i :: is, s =>
    match s.call i (unblockFunc t) with
    | .error _ => False
    | .ok (result, s) => result = .success ∧ RetriesSucceed t is s

instance RetriesSucceed.decidable (t : BlockType) :
    (is : List Nat) → (s : Server) → Decidable (RetriesSucceed t is s)
  | [], _ => inferInstanceAs (Decidable True)
  | i :: is, s =>
    match h : s.call i (unblockFunc t) with
    | .error _ => isFalse (by rw [RetriesSucceed, h]; exact id)
    | .ok (result, s') =>
      have := RetriesSucceed.decidable t is s'
      decidable_of_iff (result = .success ∧ RetriesSucceed t is s') (by rw [RetriesSucceed, h])

theorem RetriesSucceed.cons_iff {t : BlockType} {i : Nat} {is : List Nat} {s : Server} :
    RetriesSucceed t (i :: is) s ↔ ∃ c o, s.connections i = some c ∧
      unblockFunc t c s.world = .ok o ∧ o.result = .success ∧ RetriesSucceed t is (s.after i o) := by
  rw [RetriesSucceed]
  constructor
  · intro h
    split at h
    · cases h
    · rename_i r s' hcall
      obtain ⟨c, o, hc, ho, rfl, rfl⟩ := call_inv hcall
      exact ⟨c, o, hc, ho, h.1, h.2⟩
  · rintro ⟨c, o, hc, ho, hresult, hrest⟩
    rw [call_of hc ho]
    exact ⟨hresult, hrest⟩

theorem RetriesSucceed.congr {t : BlockType} {is : List Nat} {s s' : Server}
    (h : RetriesSucceed t is s) (hw : s'.world = s.world) (hc : s'.connections = s.connections) :
    RetriesSucceed t is s' := by
  induction is generalizing s s' with
  | nil => trivial
  | cons i is ih =>
    obtain ⟨c, o, hci, ho, hr, hrest⟩ := RetriesSucceed.cons_iff.mp h
    refine RetriesSucceed.cons_iff.mpr ⟨c, o, by rw [hc, hci], by rw [hw, ho], hr, ih hrest rfl ?_⟩
    funext j
    rw [after_connections, after_connections, hc]

section
variable {s s₁ s₂ s' : Server} {l l' is : List Nat} {qs qs' pre post ms rest : List Queue} {q : Queue}
  {i current : Nat} {t : BlockType} {e : Option Pointer} {c : Connection}

theorem popBlocked_returns {u : Option Nat} :
    Returns (fun n => s.popBlocked n e t) (u, s') ↔ ∃ b,
      Returns (fun n => blockedConnectionsPopLoop e t s.links s.blocked n none s.blocked.head) (u, b) ∧
        s' = { s with blocked := b } := by
  unfold popBlocked blockedConnectionsPop
  constructor
  · rintro ⟨n, h⟩
    obtain ⟨⟨u', b⟩, hpop, h⟩ := Except.bind_eq_ok_iff.mp h
    cases h
    exact ⟨b, ⟨n, hpop⟩, rfl⟩
  · rintro ⟨b, ⟨n, hn⟩, rfl⟩
    exact ⟨n, Except.bind_eq_ok_iff.mpr ⟨(u, b), hn, rfl⟩⟩

theorem Placed.next_popped (h : s.Placed l qs) (hq : q ∈ qs) (hmem : q.members = i :: is) :
    s.links.next i = is.head? := by
  have hlinked := h.linked q hq
  rw [hmem] at hlinked
  simpa using hlinked.1

theorem Placed.node_ne (h : s.Placed l (pre ++ q :: post)) {r : Queue} (hr : r ∈ pre ++ post) :
    r.node ≠ q.node := by
  have hnodes := h.nodes
  rw [List.map_append, List.map_cons] at hnodes
  obtain ⟨-, hright, hdisjoint⟩ := List.nodup_append.mp hnodes
  rcases List.mem_append.mp hr with hr | hr
  · exact hdisjoint _ (List.mem_map_of_mem hr) _ (by simp)
  · exact fun he => (List.nodup_cons.mp hright).1 (he ▸ List.mem_map_of_mem hr)

/-- No queue matches: nothing is popped. -/
theorem Placed.pop_none (h : s.Placed l qs) (hqs : ∀ q ∈ qs, ¬ q.Matches e t) :
    Returns (fun n => s.popBlocked n e t) (none, s) :=
  popBlocked_returns.mpr ⟨s.blocked, (popLoop_skip h.chain hqs).mpr popLoop_none, rfl⟩

/-- The first queue that matches loses its first connection. -/
theorem Placed.pop_some (h : s.Placed l (pre ++ q :: post)) (hpre : ∀ q ∈ pre, ¬ q.Matches e t)
    (hq : q.Matches e t) (hmem : q.members = i :: is) :
    ∃ b, Returns (fun n => s.popBlocked n e t) (.some i, { s with blocked := b }) ∧
      (pre = [] ∨ is ≠ [] → ChainSegment b b.head (pre ++ q.rest ++ post) none) ∧
      (pre ≠ [] → is = [] → ChainSegment b b.head pre (.some q.node) ∧ b.lists q.node = none) := by
  have hnext := h.next_popped (by simp) hmem
  obtain ⟨b, hpop, -, hwhole, hcut⟩ :=
    popLoop_some h.chain (fun r hr => h.node_ne hr) hpre hq hmem hnext
  exact ⟨b, popBlocked_returns.mpr ⟨b, hpop, rfl⟩, hwhole, hcut⟩

theorem Placed.mem_queue (h : s.Placed l qs) (hq : q ∈ qs) (hi : i ∈ q.members) :
    i ∉ l ∧ ∃ c, s.connections i = .some c ∧ c.state.awaits = .some q.type ∧ c.entryHeader = q.entry := by
  have hflat : i ∈ qs.flatMap Queue.members := List.mem_flatMap.mpr ⟨q, hq, hi⟩
  refine ⟨fun hl => (List.nodup_append.mp h.once).2.2 i hl i hflat rfl, ?_⟩
  obtain ⟨c, hc⟩ := Option.isSome_iff_exists.mp
    ((h.opened i).mpr (List.mem_append_right _ hflat))
  exact ⟨c, hc, h.waits q hq i hi c hc⟩

theorem Placed.mem_active (h : s.Placed l qs) (hi : i ∈ l) :
    ∃ c, s.connections i = .some c ∧ c.state.awaits = none := by
  obtain ⟨c, hc⟩ := Option.isSome_iff_exists.mp ((h.opened i).mpr (List.mem_append_left _ hi))
  exact ⟨c, hc, h.ready i hi c hc⟩

theorem perm_woken (l : List Nat) (hmem : q.members = i :: is) :
    (l ++ [i] ++ (pre ++ q.rest ++ post).flatMap Queue.members).Perm
      (l ++ (pre ++ q :: post).flatMap Queue.members) := by
  simp only [List.flatMap_append, List.flatMap_cons, Queue.rest_members, hmem,
    List.append_assoc, List.cons_append]
  refine List.Perm.append_left l ?_
  have hmiddle := @List.perm_middle _ i (pre.flatMap Queue.members)
    (is ++ post.flatMap Queue.members)
  exact hmiddle.symm

theorem Placed.mem_rest (h : s.Placed l (pre ++ q :: post)) {r : Queue}
    (hr : r ∈ pre ++ q.rest ++ post) :
    ∃ r₀ ∈ pre ++ q :: post, r.node = r₀.node ∧ r.entry = r₀.entry ∧ r.type = r₀.type ∧
      r.members ≠ [] ∧ r.members <:+ r₀.members := by
  rcases List.mem_append.mp hr with hr | hr
  · rcases List.mem_append.mp hr with hr | hr
    · have hr₀ : r ∈ pre ++ q :: post := List.mem_append_left _ hr
      exact ⟨r, hr₀, rfl, rfl, rfl, h.some r hr₀, List.suffix_refl _⟩
    · obtain ⟨rfl, hne⟩ := Queue.mem_rest hr
      exact ⟨q, by simp, rfl, rfl, rfl, hne, List.tail_suffix _⟩
  · have hr₀ : r ∈ pre ++ q :: post := List.mem_append_right _ (List.mem_cons_of_mem _ hr)
    exact ⟨r, hr₀, rfl, rfl, rfl, h.some r hr₀, List.suffix_refl _⟩

theorem nodes_rest : ((pre ++ q.rest ++ post).map Queue.node).Sublist
    ((pre ++ q :: post).map Queue.node) := by
  have hrest : (q.rest.map Queue.node).Sublist [q.node] := by
    unfold Queue.rest
    split
    · exact List.nil_sublist _
    · exact List.Sublist.refl _
  simp only [List.map_append, List.map_cons, List.append_assoc]
  exact List.Sublist.append_left (hrest.append_right _) _

/-- A popped connection whose retry succeeded joins the active list. -/
theorem Placed.woken (h : s.Placed l (pre ++ q :: post)) (hne : l ≠ [])
    (hmem : q.members = i :: is) {b : BlockedConnections} {o : Outcome System}
    (hchain : ChainSegment b b.head (pre ++ q.rest ++ post) none)
    (ho : o.connection.state.awaits = none)
    (hs₂ : s₂ = ({ s with blocked := b } : Server).after i o) :
    ∃ s₃, s₂.append i = .ok s₃ ∧ s₃.Placed (l ++ [i]) (pre ++ q.rest ++ post) ∧
      s₃.world = s₂.world ∧ s₃.connections = s₂.connections := by
  have hperm : (l ++ [i] ++ (pre ++ q.rest ++ post).flatMap Queue.members).Perm
      (l ++ (pre ++ q :: post).flatMap Queue.members) := perm_woken l hmem
  have hi : i ∉ l := (h.mem_queue (q := q) (by simp) (by rw [hmem]; simp)).1
  have hactive : s₂.Active l := by
    rw [hs₂]
    exact h.active
  obtain ⟨links, list, happend, hchain', hout⟩ := append_active hactive hi fun he => absurd he hne
  refine ⟨_, happend, ?_, rfl, rfl⟩
  have hother : ∀ j, j ≠ i → s₂.connections j = s.connections j := by
    intro j hj
    rw [hs₂, after_connections, if_neg hj]
  have hself : s₂.connections i = .some o.connection := by
    rw [hs₂, after_connections, if_pos rfl]
  have honce := hperm.nodup_iff.mpr h.once
  have hnotin : ∀ r ∈ pre ++ q.rest ++ post, ∀ j ∈ r.members, j ∉ l ++ [i] := by
    intro r hr j hj hjl
    exact (List.nodup_append.mp honce).2.2 j hjl j (List.mem_flatMap.mpr ⟨r, hr, hj⟩) rfl
  constructor
  · exact hchain'
  · rw [hs₂]
    exact hchain
  · exact h.nodes.sublist nodes_rest
  · intro r hr
    obtain ⟨r₀, -, -, -, -, hsome, -⟩ := h.mem_rest hr
    exact hsome
  · intro r hr
    obtain ⟨r₀, hr₀, -, -, -, -, front, hsuffix⟩ := h.mem_rest hr
    have hlinked := h.linked r₀ hr₀
    rw [← hsuffix, ForwardLinked.append] at hlinked
    refine hlinked.2.congr fun j hj => ?_
    rw [(hout j (hnotin r hr j hj)).2, hs₂]
    rfl
  · exact honce
  · intro j
    rw [hperm.mem_iff, ← h.opened j]
    by_cases hj : j = i
    · subst hj
      have hopen := (h.opened j).mpr (hperm.mem_iff.mp (by simp))
      simp [hself, hopen]
    · rw [← hother j hj]
  · intro j hj c hc
    rcases List.mem_append.mp hj with hj | hj
    · have hji : j ≠ i := fun he => hi (he ▸ hj)
      exact h.ready j hj c ((hother j hji).symm.trans hc)
    · rw [List.mem_singleton.mp hj] at hc
      cases hself.symm.trans hc
      exact ho
  · intro r hr j hj c hc
    obtain ⟨r₀, hr₀, -, hentry, htype, -, hsuffix⟩ := h.mem_rest hr
    have hji : j ≠ i := fun he => hnotin r hr j hj (by simp [he])
    rw [hentry, htype]
    exact h.waits r₀ hr₀ j (hsuffix.subset hj) c ((hother j hji).symm.trans hc)

/-! ### The loop -/

theorem exists_first {ws : List Nat} (hms : ms.flatMap Queue.members = i :: ws)
    (hsome : ∀ q ∈ ms, q.members ≠ []) :
    ∃ q ms' is, ms = q :: ms' ∧ q.members = i :: is ∧
      (q.rest ++ ms').flatMap Queue.members = ws := by
  cases ms with
  | nil => cases hms
  | cons q ms' =>
    obtain ⟨j, is, hq⟩ := List.exists_cons_of_ne_nil (hsome q (by simp))
    rw [List.flatMap_cons, hq, List.cons_append] at hms
    obtain ⟨rfl, hws⟩ := List.cons.inj hms
    refine ⟨q, ms', is, rfl, hq, ?_⟩
    rw [List.flatMap_append, Queue.rest_members, hq]
    exact hws

theorem flatMap_members_nil (hms : ms.flatMap Queue.members = [])
    (hsome : ∀ q ∈ ms, q.members ≠ []) : ms = [] := by
  cases ms with
  | nil => rfl
  | cons q ms' =>
    rw [List.flatMap_cons] at hms
    exact absurd (List.append_eq_nil_iff.mp hms).1 (hsome q (by simp))

theorem unblockLoop_returns_none (hc : s.connections current = .some c)
    (hpop : Returns (fun n => s.popBlocked n c.entryHeader t) (none, s)) :
    Returns (fun n => unblockLoop current t n s) s' ↔ s' = s := by
  rw [unblockLoop_returns hc hpop]
  exact Returns.const_iff.trans ⟨fun h => (Except.ok.inj h).symm, fun h => congrArg Except.ok h.symm⟩

/-- The queues that match are the first ones and every retry succeeds: all waiters are woken. -/
theorem Placed.wakes_all (h : s.Placed l (ms ++ rest)) (hms : ∀ q ∈ ms, q.Matches c.entryHeader t)
    (hrest : ∀ q ∈ rest, ¬ q.Matches c.entryHeader t) (hcur : current ∈ l)
    (hc : s.connections current = .some c)
    (hretry : RetriesSucceed t (ms.flatMap Queue.members) s) :
    ∃ s', Returns (fun n => unblockLoop current t n s) s' ∧
      s'.Placed (l ++ ms.flatMap Queue.members) rest := by
  generalize hws : ms.flatMap Queue.members = ws at hretry
  induction ws generalizing s l ms with
  | nil =>
    have hnil := flatMap_members_nil hws fun q hq => h.some q (List.mem_append_left _ hq)
    subst hnil
    rw [List.append_nil]
    exact ⟨s, (unblockLoop_returns_none hc (h.pop_none hrest)).mpr rfl, h⟩
  | cons i ws ih =>
    obtain ⟨q, ms', is, rfl, hmem, hws'⟩ :=
      exists_first hws fun q hq => h.some q (List.mem_append_left _ hq)
    obtain ⟨ci, o, hci, ho, hresult, hretry'⟩ := RetriesSucceed.cons_iff.mp hretry
    have h' : s.Placed l ([] ++ q :: (ms' ++ rest)) := h
    obtain ⟨b, hpop, hchain, -⟩ := h'.pop_some (by simp) (hms q (by simp)) hmem
    have hchain := hchain (Or.inl rfl)
    have hawaits : o.connection.state.awaits = none := by
      rw [(unblockFunc_awaits ho).2, hresult]
      rfl
    obtain ⟨s₃, happend, hplaced, hworld, hconn⟩ :=
      h'.woken (List.ne_nil_of_mem hcur) hmem hchain hawaits rfl
    have hcall : ({ s with blocked := b } : Server).call i (unblockFunc t) =
        .ok (.success, ({ s with blocked := b } : Server).after i o) := by
      rw [call_of (s := { s with blocked := b }) hci ho, hresult]
    have hne : current ≠ i := fun he =>
      (h'.mem_queue (q := q) (by simp) (by rw [hmem]; simp)).1 (he ▸ hcur)
    have hc₃ : s₃.connections current = .some c := by
      rw [hconn, after_connections, if_neg hne]
      exact hc
    have hms₃ : ∀ r ∈ q.rest ++ ms', r.Matches c.entryHeader t := by
      intro r hr
      rcases List.mem_append.mp hr with hr | hr
      · rw [(Queue.mem_rest hr).1]
        exact hms q (by simp)
      · exact hms r (List.mem_cons_of_mem _ hr)
    have hplaced : s₃.Placed (l ++ [i]) (q.rest ++ ms' ++ rest) := by
      rw [List.append_assoc]
      exact hplaced
    have hretry₃ : RetriesSucceed t ws s₃ := hretry'.congr hworld (hconn.trans rfl)
    obtain ⟨s', hs', hfinal⟩ := ih hplaced hms₃ (List.mem_append_left _ hcur) hc₃ hws' hretry₃
    refine ⟨s', ?_, ?_⟩
    · rw [unblockLoop_returns hc hpop, retryPopped_woken hcall happend]
      exact hs'
    · have happ : l ++ i :: ws = l ++ [i] ++ ws := by simp
      rw [happ]
      exact hfinal

theorem segment_ne_nil {b : BlockedConnections} {p m : Option Nat} (h : ChainSegment b p qs m)
    (hqs : qs ≠ []) : p ≠ none := by
  cases qs with
  | nil => exact absurd rfl hqs
  | cons q qs =>
    rw [h.1]
    simp

theorem unblockLoop_pops (hc : s.connections current = .some c)
    (h : Returns (fun n => unblockLoop current t n s) s') :
    ∃ u, Returns (fun n => s.popBlocked n c.entryHeader t) u := by
  obtain ⟨n, hn⟩ := h
  cases n with
  | zero => cases hn
  | succ n =>
    have hn : unblockLoop current t (n + 1) s = .ok s' := hn
    rw [unblockLoop_succ n hc] at hn
    obtain ⟨u, hpop, -⟩ := Except.bind_eq_ok_iff.mp hn
    exact ⟨u, n + 1, hpop⟩

/-- What a round did after it popped `i`: the retry failed and the chain was empty, or the
retry succeeded and the loop went on. -/
theorem retryPopped_inv (h : Returns (fun n => retryPopped current t n (.some i) s) s') :
    ∃ ci o, s.connections i = .some ci ∧ unblockFunc t ci s.world = .ok o ∧
      ((o.result ≠ .success ∧ Returns (fun n => (s.after i o).addBlocked n current t) s') ∨
        (o.result = .success ∧ ∃ s₃, (s.after i o).append i = .ok s₃ ∧
          Returns (fun n => unblockLoop current t n s₃) s')) := by
  obtain ⟨n, hn⟩ := h
  obtain ⟨⟨r, s₂⟩, hcall, hn⟩ := Except.bind_eq_ok_iff.mp hn
  obtain ⟨ci, o, hci, ho, rfl, rfl⟩ := call_inv hcall
  refine ⟨ci, o, hci, ho, ?_⟩
  simp only at hn
  split at hn
  · rename_i hfailed
    exact Or.inl ⟨hfailed, n + 1, hn⟩
  · rename_i hsuccess
    obtain ⟨s₃, happend, hn⟩ := Except.bind_eq_ok_iff.mp hn
    exact Or.inr ⟨not_not.mp hsuccess, s₃, happend, n, hn⟩

/-- A queue that matches behind one that does not: the loop does not return. Its emptied node
is freed but still linked, and a failed retry meets a chain that is not empty. -/
theorem Placed.stuck (h : s.Placed l (pre ++ q :: post)) (hne : pre ≠ [])
    (hpre : ∀ q ∈ pre, ¬ q.Matches c.entryHeader t) (hq : q.Matches c.entryHeader t)
    (hcur : current ∈ l) (hc : s.connections current = .some c) :
    ¬ Returns (fun n => unblockLoop current t n s) s' := by
  induction hm : q.members generalizing s l q with
  | nil => exact absurd hm (h.some q (by simp))
  | cons i is ih =>
    obtain ⟨b, hpop, hchain, hdangling⟩ := h.pop_some hpre hq hm
    have hi : i ≠ current := fun he =>
      (h.mem_queue (q := q) (by simp) (by rw [hm]; simp)).1 (he ▸ hcur)
    have hhead : b.head ≠ none := by
      by_cases his : is = []
      · exact segment_ne_nil (hdangling hne his).1 hne
      · exact segment_ne_nil (hchain (Or.inr his)) (by simp [hne])
    rw [unblockLoop_returns hc hpop]
    intro hloop
    obtain ⟨ci, o, hci, ho, ⟨-, hadd⟩ | ⟨hresult, s₃, happend, hrest⟩⟩ := retryPopped_inv hloop
    · obtain ⟨-, -, ⟨hnone, -⟩, -⟩ := addBlocked_returns.mp hadd
      exact hhead hnone
    · have hc₃ : s₃.connections current = .some c := by
        obtain ⟨links, list, rfl⟩ := append_frame happend
        exact (if_neg hi.symm).trans hc
      by_cases his : is = []
      · obtain ⟨u, b', hpop'⟩ := unblockLoop_pops hc₃ hrest
        obtain ⟨links, list, rfl⟩ := append_frame happend
        obtain ⟨hseg, hfree⟩ := hdangling hne his
        obtain ⟨u', b''⟩ := u
        obtain ⟨b₂, hpop₂, -⟩ := popBlocked_returns.mp ⟨b', hpop'⟩
        exact popLoop_dangling hseg hpre hfree hpop₂
      · have hawaits : o.connection.state.awaits = none := by
          rw [(unblockFunc_awaits ho).2, hresult]
          rfl
        obtain ⟨s₄, happend', hplaced, -⟩ :=
          h.woken (List.ne_nil_of_mem hcur) hm (hchain (Or.inr his)) hawaits rfl
        cases happend.symm.trans happend'
        have htail : q.members.tail = is := by rw [hm]; rfl
        rw [Queue.rest, if_neg fun he => his (htail.symm.trans he), htail, List.append_assoc] at hplaced
        exact ih hplaced hq (List.mem_append_left _ hcur) hc₃ rfl hrest

/-- A failed retry leaves its connection nowhere: the current one is queued instead. -/
theorem not_placed_of_failed {o : Outcome System} (hi : i ≠ current)
    (hawaits : o.connection.state.awaits ≠ none)
    (hadd : Returns (fun n => (s.after i o).addBlocked n current t) s') : ¬ s'.Placed l' qs' := by
  obtain ⟨c, -, ⟨hhead, -⟩, rfl⟩ := addBlocked_returns.mp hadd
  intro h
  have hself : (s.after i o).connections i = .some o.connection := if_pos rfl
  have hmem := (h.opened i).mp (by rw [hself]; rfl)
  rcases List.mem_append.mp hmem with hl | hq
  · exact hawaits (h.ready i hl _ hself)
  · obtain ⟨q, hq, hiq⟩ := List.mem_flatMap.mp hq
    have hchain := h.chain
    cases qs' with
    | nil => cases hq
    | cons q₀ qs₀ =>
      obtain ⟨hnode, next, hcontent, hrest⟩ := hchain
      have hnode : (s.after i o).blocked.created = q₀.node := Option.some.inj hnode
      have hcontent := (if_pos hnode.symm).symm.trans hcontent
      have hcontent := Option.some.inj hcontent
      have hmembers : q₀.members = [current] := by
        have hlength : 1 = q₀.members.length := congrArg BlockedConnectionList.size hcontent
        have hfirst : .some current = q₀.members.head? := congrArg BlockedConnectionList.head hcontent
        obtain ⟨j, hj⟩ := List.length_eq_one_iff.mp hlength.symm
        rw [hj] at hfirst ⊢
        rw [Option.some.inj hfirst]
      have hnext : (s.after i o).blocked.head = next := congrArg BlockedConnectionList.next hcontent
      have hqs₀ : qs₀ = [] := by
        by_contra hne
        exact segment_ne_nil hrest hne (hnext.symm.trans hhead)
      subst hqs₀
      rw [List.mem_singleton.mp hq, hmembers] at hiq
      exact hi (List.mem_singleton.mp hiq)

theorem exists_behind (hhead : ∀ q ∈ rest.head?, ¬ q.Matches e t)
    (hrest : ¬ ∀ q ∈ rest, ¬ q.Matches e t) :
    ∃ pre q post, rest = pre ++ q :: post ∧ pre ≠ [] ∧ (∀ r ∈ pre, ¬ r.Matches e t) ∧
      q.Matches e t := by
  push Not at hrest
  obtain ⟨q₀, hq₀, hm₀⟩ := hrest
  cases hfind : rest.find? fun q => q.Matches e t with
  | none => exact absurd (decide_eq_true hm₀) (List.find?_eq_none.mp hfind q₀ hq₀)
  | some q =>
    obtain ⟨hq, pre, post, hsplit, hpre⟩ := List.find?_eq_some_iff_append.mp hfind
    have hq : q.Matches e t := of_decide_eq_true hq
    refine ⟨pre, q, post, hsplit, fun hnil => ?_, fun r hr => by simpa using hpre r hr, hq⟩
    subst hnil
    exact hhead q (by rw [hsplit]; rfl) hq

theorem exists_front (qs : List Queue) (e : Option Pointer) (t : BlockType) :
    ∃ ms rest, qs = ms ++ rest ∧ (∀ q ∈ ms, q.Matches e t) ∧
      ∀ q ∈ rest.head?, ¬ q.Matches e t := by
  induction qs with
  | nil => exact ⟨[], [], rfl, by simp, by simp⟩
  | cons q qs ih =>
    by_cases hq : q.Matches e t
    · obtain ⟨ms, rest, rfl, hms, hrest⟩ := ih
      refine ⟨q :: ms, rest, rfl, fun r hr => ?_, hrest⟩
      rcases List.mem_cons.mp hr with rfl | hr
      · exact hq
      · exact hms r hr
    · refine ⟨[], q :: qs, rfl, by simp, fun r hr => ?_⟩
      cases hr
      exact hq

/-- The loop leaves every connection in one place only in that case. -/
theorem Placed.of_wakes (h : s.Placed l (ms ++ rest)) (hms : ∀ q ∈ ms, q.Matches c.entryHeader t)
    (hhead : ∀ q ∈ rest.head?, ¬ q.Matches c.entryHeader t) (hcur : current ∈ l)
    (hc : s.connections current = .some c)
    (hloop : Returns (fun n => unblockLoop current t n s) s') (hplaced : s'.Placed l' qs') :
    (∀ q ∈ rest, ¬ q.Matches c.entryHeader t) ∧
      RetriesSucceed t (ms.flatMap Queue.members) s := by
  generalize hws : ms.flatMap Queue.members = ws
  induction ws generalizing s l ms with
  | nil =>
    have hnil := flatMap_members_nil hws fun q hq => h.some q (List.mem_append_left _ hq)
    subst hnil
    refine ⟨?_, trivial⟩
    by_contra hrest
    obtain ⟨pre, q, post, rfl, hne, hpre, hq⟩ := exists_behind hhead hrest
    exact Placed.stuck (l := l) h hne hpre hq hcur hc hloop
  | cons i ws ih =>
    obtain ⟨q, ms', is, rfl, hmem, hws'⟩ :=
      exists_first hws fun q hq => h.some q (List.mem_append_left _ hq)
    have h' : s.Placed l ([] ++ q :: (ms' ++ rest)) := h
    obtain ⟨b, hpop, hchain, -⟩ := h'.pop_some (by simp) (hms q (by simp)) hmem
    have hchain := hchain (Or.inl rfl)
    have hi : i ≠ current := fun he =>
      (h'.mem_queue (q := q) (by simp) (by rw [hmem]; simp)).1 (he ▸ hcur)
    rw [unblockLoop_returns hc hpop] at hloop
    obtain ⟨ci, o, hci, ho, ⟨hfailed, hadd⟩ | ⟨hresult, s₃, happend, hrest⟩⟩ := retryPopped_inv hloop
    · have hawaits : o.connection.state.awaits ≠ none := by
        rw [(unblockFunc_awaits ho).2]
        exact unblockFunc_failed ho hfailed
      exact absurd hplaced (not_placed_of_failed hi hawaits hadd)
    · have hawaits : o.connection.state.awaits = none := by
        rw [(unblockFunc_awaits ho).2, hresult]
        rfl
      obtain ⟨s₄, happend', hplaced₃, hworld, hconn⟩ :=
        h'.woken (List.ne_nil_of_mem hcur) hmem hchain hawaits rfl
      cases happend.symm.trans happend'
      have hc₃ : s₃.connections current = .some c := by
        rw [hconn, after_connections, if_neg hi.symm]
        exact hc
      have hms₃ : ∀ r ∈ q.rest ++ ms', r.Matches c.entryHeader t := by
        intro r hr
        rcases List.mem_append.mp hr with hr | hr
        · rw [(Queue.mem_rest hr).1]
          exact hms q (by simp)
        · exact hms r (List.mem_cons_of_mem _ hr)
      have hplaced₃ : s₃.Placed (l ++ [i]) (q.rest ++ ms' ++ rest) := by
        rw [List.append_assoc]
        exact hplaced₃
      obtain ⟨hothers, hretries⟩ := ih hplaced₃ hms₃ (List.mem_append_left _ hcur) hc₃ hrest hws'
      exact ⟨hothers, RetriesSucceed.cons_iff.mpr
        ⟨ci, o, hci, ho, hresult, hretries.congr hworld.symm (hconn.symm.trans rfl)⟩⟩

end

/-- The queues that match are the first ones of the chain. -/
def Foremost (qs : List Queue) (e : Option Pointer) (t : BlockType) : Prop :=
  ∃ ms rest, qs = ms ++ rest ∧ (∀ q ∈ ms, q.Matches e t) ∧ ∀ q ∈ rest, ¬ q.Matches e t

/-- The connections that wait for `e`, in the order in which they are popped. -/
def waiters (qs : List Queue) (e : Option Pointer) (t : BlockType) : List Nat :=
  (qs.filter fun q => q.Matches e t).flatMap Queue.members

theorem waiters_split {ms rest : List Queue} {e : Option Pointer} {t : BlockType}
    (hms : ∀ q ∈ ms, q.Matches e t) (hrest : ∀ q ∈ rest, ¬ q.Matches e t) :
    waiters (ms ++ rest) e t = ms.flatMap Queue.members := by
  have hkept : ms.filter (fun q => q.Matches e t) = ms :=
    List.filter_eq_self.mpr fun q hq => decide_eq_true (hms q hq)
  have hnone : rest.filter (fun q => q.Matches e t) = [] :=
    List.filter_eq_nil_iff.mpr fun q hq => by simpa using hrest q hq
  rw [waiters, List.filter_append, hkept, hnone, List.append_nil]

theorem Placed.of_handles {s s' : Server} {l l' : List Nat} {qs qs' : List Queue}
    {current : Nat} {c : Connection} {e : Option Pointer} {t : BlockType} (h : s.Placed l qs)
    (hcur : current ∈ l) (hc : s.connections current = .some c)
    (hevent : c.lockReleaseEvent = t.event) (hentry : c.entryHeader = e)
    (hloop : Returns (fun n => handleLockReleaseEvent n current s) s') (hplaced : s'.Placed l' qs') :
    Foremost qs e t ∧ RetriesSucceed t (waiters qs e t) s := by
  simp only [handleLockReleaseEvent_event hc hevent] at hloop
  obtain ⟨ms, rest, rfl, hms, hhead⟩ := exists_front qs e t
  subst hentry
  obtain ⟨hrest, hretries⟩ := h.of_wakes hms hhead hcur hc hloop hplaced
  refine ⟨⟨ms, rest, rfl, hms, hrest⟩, ?_⟩
  rw [waiters_split hms hrest]
  exact hretries

end Server

open Server

/-- After the current connection released the lock on `e`: handle_lock_release_event returns and
every connection is where it belongs exactly when the queues of `e` are the first ones of the
chain and each retry succeeds. -/
theorem handleLockReleaseEvent_rehomes_iff {s : Server} {l : List Nat} {qs : List Queue}
    {current : Nat} {c : Connection} {e : Pointer} {t : BlockType} (hplaced : s.Placed l qs)
    (hcur : current ∈ l) (hc : s.connections current = some c)
    (hevent : c.lockReleaseEvent = t.event) (hentry : c.entryHeader = some e) :
    (∃ s', (∃ n, handleLockReleaseEvent n current s = .ok s') ∧
        ∃ l' qs', s'.Rehomed l qs e t l' qs') ↔
      Foremost qs (some e) t ∧ RetriesSucceed t (waiters qs (some e) t) s := by
  constructor
  · rintro ⟨s', hloop, l', qs', hrehomed⟩
    exact hplaced.of_handles hcur hc hevent hentry hloop hrehomed.placed
  · rintro ⟨⟨ms, rest, rfl, hms, hrest⟩, hretries⟩
    rw [waiters_split hms hrest] at hretries
    simp only [handleLockReleaseEvent_event hc hevent]
    obtain ⟨s', hloop, hfinal⟩ := hplaced.wakes_all (by rwa [hentry]) (by rwa [hentry]) hcur hc hretries
    refine ⟨s', hloop, _, _, hfinal, fun i hi => List.mem_append_left _ hi, ?_, ?_, ?_⟩
    · intro q hq hnot i hi
      rcases List.mem_append.mp hq with hq | hq
      · exact absurd (hms q hq) hnot
      · exact ⟨q, hq, ⟨rfl, rfl⟩, hi⟩
    · intro q hq hmatch i hi
      rcases List.mem_append.mp hq with hq | hq
      · have hmem : i ∈ l ++ ms.flatMap Queue.members :=
          List.mem_append_right _ (List.mem_flatMap.mpr ⟨q, hq, hi⟩)
        obtain ⟨c', hc', hawaits⟩ := hfinal.mem_active hmem
        exact ⟨c', hc', Or.inl ⟨hawaits, hmem⟩⟩
      · exact absurd hmatch (hrest q hq)
    · exact fun q hq hmatch => absurd hmatch (hrest q hq)

/-! ### One waiter -/

/-- `Placed` for one queue, but for the connections that are not open. -/
def Server.OneWaiter (s : Server) (l : List Nat) (i : Nat) (e : Option Pointer) (t : BlockType) : Prop :=
  s.Active l ∧ s.blocked.head = some 0 ∧ s.blocked.lists 0 = some ⟨none, some i, some i, e, 1, t⟩ ∧
    s.links.next i = none ∧ (l ++ [i]).Nodup ∧ (∀ j < 3, (s.connections j).isSome ↔ j ∈ l ++ [i]) ∧
    (∀ j ∈ l ++ [i], j < 3) ∧ (∀ j ∈ l, ∀ c ∈ s.connections j, c.state.awaits = none) ∧
    ∀ c ∈ s.connections i, c.state.awaits = some t ∧ c.entryHeader = e

instance (s : Server) (l : List Nat) (i : Nat) (e : Option Pointer) (t : BlockType) :
    Decidable (s.OneWaiter l i e t) :=
  inferInstanceAs (Decidable (_ ∧ _))

theorem Server.OneWaiter.placed {s : Server} {l : List Nat} {i : Nat} {e : Option Pointer}
    {t : BlockType} (h : s.OneWaiter l i e t) (hfresh : ∀ j, 3 ≤ j → s.connections j = none) :
    s.Placed l [⟨0, e, t, [i]⟩] := by
  obtain ⟨hactive, hhead, hnode, hnext, hnodup, hopen, hbound, hready, hwaits⟩ := h
  refine ⟨hactive, ⟨hhead, none, hnode, rfl⟩, by simp, by simp, ?_, by simpa using hnodup, fun j => ?_,
    hready, ?_⟩
  · intro q hq
    rw [List.mem_singleton.mp hq]
    exact ⟨hnext, trivial⟩
  · by_cases hj : j < 3
    · simpa using hopen j hj
    · have hnone := hfresh j (by omega)
      refine iff_of_false (by simp [hnone]) fun hmem => hj (hbound j (by simpa using hmem))
  · intro q hq j hj c hc
    rw [List.mem_singleton.mp hq] at hj ⊢
    rw [List.mem_singleton.mp hj] at hc
    exact hwaits c hc

/-- `PUT b = c` on the first connection. -/
def storesB : List Environment :=
  [receives 0 [1, 0, 1, 2], receives 0 [1, 0, 1, 0, 0, 0], receives 0 [98, 99], sends 0 1]

/-- A second client asks for `a` and a third one for `b`, up to the values. -/
def readsBoth : List Environment :=
  [connects 2000, connects 4000, sends 4000 0, receives 4000 [1, 0, 0, 1], sends 4000 0,
    receives 4000 [1, 0], sends 4000 0, receives 4000 [97], sends 4000 0, sends 4000 0,
    receives 4000 [1, 0, 0, 1], sends 4000 0, sends 4000 0, receives 4000 [1, 0], sends 4000 0,
    sends 4000 0, receives 4000 [98], receives 4000 [1, 0, 1, 2]]

/-- The first connection is blocked: on the entry of `a`, and then also on that of `b`. -/
def blocksWrite : List Environment := storesA ++ readsA ++ [receives 2000 [1, 0, 13, 0, 0, 0]]

def blocksWriteTwice : List Environment :=
  storesA ++ storesB ++ readsBoth ++ [receives 4000 [1, 0, 13, 0, 0, 0]]

/-- The second connection sends its value: the last calls of connection_proc before
handle_lock_release_event, had the cursor moved on to it. -/
def valueSent (s : Server) : Except Fault Server := do
  let (_, s) ← s.call 1 (connectionProc serverServices ⟨[], false, 5, false⟩)
  let (_, s) ← s.call 1 (connectionProc serverServices ⟨[], false, 1, false⟩)
  .ok s

theorem valueSent_other {s s' : Server} (h : valueSent s = .ok s') {j : Nat} (hj : j ≠ 1) :
    s'.connections j = s.connections j := by
  unfold valueSent at h
  obtain ⟨⟨r₁, s₁⟩, hcall₁, h⟩ := Except.bind_eq_ok_iff.mp h
  obtain ⟨⟨r₂, s₂⟩, hcall₂, h⟩ := Except.bind_eq_ok_iff.mp h
  cases h
  obtain ⟨c₁, o₁, -, -, -, rfl⟩ := call_inv hcall₁
  obtain ⟨c₂, o₂, -, -, -, rfl⟩ := call_inv hcall₂
  exact (if_neg hj).trans (if_neg hj)

/-- What a run that blocks the first connection leaves, the second one's value sent. -/
theorem valueSent_placed {envs : List Environment} {s s' : Server} {l : List Nat}
    (hrun : run 1 envs smallServer = .ok s) (hsent : valueSent s = .ok s') (haccepted : s.accepted ≤ 3)
    (h : s'.OneWaiter l 0 (some (ringPointer 0)) .write) :
    s'.Placed l [⟨0, some (ringPointer 0), .write, [0]⟩] := by
  refine h.placed fun j hj => ?_
  rw [valueSent_other hsent (by omega)]
  exact (run_reachable .opened hrun).sound.fresh j (by omega)

/-- The current connection of these states, and what its event wakes. -/
def releasedA (s : Server) : Prop :=
  ((s.connections 1).map fun c => (c.lockReleaseEvent, c.entryHeader)) =
    some (.writesUnblocked, some (ringPointer 0))

instance (s : Server) : Decidable (releasedA s) := inferInstanceAs (Decidable (_ = _))

theorem releasedA_connection {s : Server} (h : releasedA s) :
    ∃ c, s.connections 1 = some c ∧ c.lockReleaseEvent = .writesUnblocked ∧
      c.entryHeader = some (ringPointer 0) := by
  obtain ⟨c, hc, hfields⟩ := Option.map_eq_some_iff.mp h
  exact ⟨c, hc, congrArg Prod.fst hfields, congrArg Prod.snd hfields⟩

/- The only reader of `a` leaves: the write that waited for it goes on. -/
theorem handleLockReleaseEvent_rehomes_one : ∃ s, s.Placed [1] [⟨0, some (ringPointer 0), .write, [0]⟩] ∧
    ∃ s', (∃ n, handleLockReleaseEvent n 1 s = .ok s') ∧
      ∃ l' qs', s'.Rehomed [1] [⟨0, some (ringPointer 0), .write, [0]⟩] (ringPointer 0) .write l' qs' := by
  have hrun : (run 1 blocksWrite smallServer).Gives fun s => s.accepted ≤ 3 ∧
      (valueSent s).Gives fun s' => s'.OneWaiter [1] 0 (some (ringPointer 0)) .write ∧ releasedA s' ∧
        RetriesSucceed .write [0] s' := by
    decide +kernel
  obtain ⟨s, hs, haccepted, s', hs', hwaiter, hreleased, hretries⟩ := hrun
  obtain ⟨c, hc, hevent, hentry⟩ := releasedA_connection hreleased
  have hplaced := valueSent_placed hs hs' haccepted hwaiter
  refine ⟨s', hplaced, ?_⟩
  exact (handleLockReleaseEvent_rehomes_iff hplaced (by simp) hc (t := .write) hevent hentry).mpr
    ⟨⟨[_], [], rfl, by simp [Queue.Matches], by simp⟩, hretries⟩

/-- Another reader holds `b`, so that the retry is blocked again: the current connection is queued
in its place, and the waiter is nowhere. -/
theorem waiter_lost : ∃ s s' c, s.Placed [1, 2] [⟨0, some (ringPointer 0), .write, [0]⟩] ∧
    s.connections 1 = some c ∧ c.lockReleaseEvent = .writesUnblocked ∧
      c.entryHeader = some (ringPointer 0) ∧ handleLockReleaseEvent 1 1 s = .ok s' ∧
      s'.blocked.head = some 1 ∧
      s'.blocked.lists 1 = some ⟨none, some 1, some 1, some (ringPointer 0), 1, .write⟩ ∧
      ¬ ∃ s', (∃ n, handleLockReleaseEvent n 1 s = .ok s') ∧ ∃ l' qs',
        s'.Rehomed [1, 2] [⟨0, some (ringPointer 0), .write, [0]⟩] (ringPointer 0) .write l' qs' := by
  have hrun : (run 1 blocksWriteTwice smallServer).Gives fun s => s.accepted ≤ 3 ∧
      (valueSent s).Gives fun s' => (s'.OneWaiter [1, 2] 0 (some (ringPointer 0)) .write ∧
          releasedA s' ∧ ¬ RetriesSucceed .write [0] s') ∧
        (handleLockReleaseEvent 1 1 s').Gives fun s'' => s''.blocked.head = some 1 ∧
          s''.blocked.lists 1 = some ⟨none, some 1, some 1, some (ringPointer 0), 1, .write⟩ := by
    decide +kernel
  obtain ⟨s, hs, haccepted, s', hs', ⟨hwaiter, hreleased, hfails⟩, s'', hhandle, hhead, hnode⟩ := hrun
  obtain ⟨c, hc, hevent, hentry⟩ := releasedA_connection hreleased
  have hplaced := valueSent_placed hs hs' haccepted hwaiter
  refine ⟨s', s'', c, hplaced, hc, hevent, hentry, hhandle, hhead, hnode, ?_⟩
  rintro ⟨s₃, hreturns, l', qs', hrehomed⟩
  exact hfails (hplaced.of_handles (by simp) hc (t := .write) hevent hentry hreturns hrehomed.placed).2

end CacheServer
