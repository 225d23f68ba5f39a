import CacheServer.Scheduler.Queues

/-!
# The wait queues as queues by key

`WaitQueues l b qs` says that the chain holds the queues `qs`, each under a key
(entry, type) of its own. `blocked_connections_add` serves the empty chain only,
and `blocked_connections_pop` leaves the chain whole unless it empties a queue
that is not the first one.
-/

namespace CacheServer

structure WaitQueues (l : Links) (b : BlockedConnections) (qs : List Queue) : Prop where
  chain : ChainSegment b b.head qs none
  nodes : (qs.map Queue.node).Nodup
  created : ∀ q ∈ qs, q.node < b.created
  keys : qs.Pairwise fun q r => ¬ r.Matches q.entry q.type
  some : ∀ q ∈ qs, q.members ≠ []
  linked : ∀ q ∈ qs, ForwardLinked l.next q.members none
  once : (qs.flatMap Queue.members).Nodup

/-- The connections that wait for an entry and a type, in the order they came. -/
def queued (qs : List Queue) (e : Option Pointer) (t : BlockType) : List Nat :=
  (qs.filter fun q => q.Matches e t).flatMap Queue.members

/-- What one more waiter should make of the queues. -/
structure Enqueued (i : Nat) (e : Option Pointer) (t : BlockType) (qs qs' : List Queue) : Prop where
  last : queued qs' e t = queued qs e t ++ [i]
  others : ∀ q, ¬ q.Matches e t → (q ∈ qs' ↔ q ∈ qs)

/-- What a pop should leave of the queues: the queue of the key without its first connection,
and without the queue if that was the only one. -/
def dequeued (qs : List Queue) (e : Option Pointer) (t : BlockType) : List Queue :=
  qs.flatMap fun q => if q.Matches e t then q.rest else [q]

/-- Pops for one key until none is left. -/
inductive Drains (l : Links) (e : Option Pointer) (t : BlockType) :
    BlockedConnections → List Nat → BlockedConnections → Prop
  | done {b b' : BlockedConnections}
      (pop : Returns (fun n => blockedConnectionsPop n e t l b) (none, b')) : Drains l e t b [] b'
  | next {b b₁ b' : BlockedConnections} {i : Nat} {is : List Nat}
      (pop : Returns (fun n => blockedConnectionsPop n e t l b) (some i, b₁))
      (rest : Drains l e t b₁ is b') : Drains l e t b (i :: is) b'

section
variable {l : Links} {b b' : BlockedConnections} {qs pre post : List Queue} {q : Queue} {i : Nat}
  {is : List Nat} {e : Option Pointer} {t : BlockType} {p m m' : Option Nat}

/-! ### Lists of queues -/

theorem queued_nil (h : ∀ q ∈ qs, ¬ q.Matches e t) : queued qs e t = [] := by
  have hfilter : (qs.filter fun q => q.Matches e t) = [] := by
    rw [List.filter_eq_nil_iff]
    exact fun q hq => by simpa using h q hq
  rw [queued, hfilter]
  rfl

theorem queued_split (hpre : ∀ q ∈ pre, ¬ q.Matches e t) (hq : q.Matches e t)
    (hpost : ∀ q ∈ post, ¬ q.Matches e t) : queued (pre ++ q :: post) e t = q.members := by
  have h1 : (pre.filter fun q => q.Matches e t) = [] := by
    rw [List.filter_eq_nil_iff]
    exact fun q hq => by simpa using hpre q hq
  have h2 : (post.filter fun q => q.Matches e t) = [] := by
    rw [List.filter_eq_nil_iff]
    exact fun q hq => by simpa using hpost q hq
  rw [queued, List.filter_append, List.filter_cons, h1, h2, if_pos (decide_eq_true hq)]
  simp

theorem dequeued_none (h : ∀ q ∈ qs, ¬ q.Matches e t) : dequeued qs e t = qs := by
  induction qs with
  | nil => rfl
  | cons q qs ih =>
    have hrest := ih fun r hr => h r (List.mem_cons_of_mem _ hr)
    rw [dequeued, List.flatMap_cons, if_neg (h q (List.mem_cons_self ..))]
    exact congrArg (q :: ·) hrest

theorem dequeued_split (hpre : ∀ q ∈ pre, ¬ q.Matches e t) (hq : q.Matches e t)
    (hpost : ∀ q ∈ post, ¬ q.Matches e t) :
    dequeued (pre ++ q :: post) e t = pre ++ q.rest ++ post := by
  have h1 : dequeued pre e t = pre := dequeued_none hpre
  have h2 : dequeued post e t = post := dequeued_none hpost
  unfold dequeued at h1 h2 ⊢
  rw [List.flatMap_append, List.flatMap_cons, h1, h2, if_pos hq, List.append_assoc]

/-- A walk from one pointer over the same queues ends at one pointer. -/
theorem ChainSegment.end_unique (h : ChainSegment b p qs m) (h' : ChainSegment b p qs m') : m = m' := by
  induction qs generalizing p with
  | nil => exact h.symm.trans h'
  | cons q qs ih =>
    obtain ⟨-, next, hnode, hrest⟩ := h
    obtain ⟨-, next', hnode', hrest'⟩ := h'
    have hnext : next = next' := by
      rw [hnode] at hnode'
      exact congrArg BlockedConnectionList.next (Option.some.inj hnode')
    subst hnext
    exact ih hrest hrest'

namespace WaitQueues

/-- Keys are distinct: around a queue that matches no other one does. -/
theorem no_other (h : WaitQueues l b (pre ++ q :: post)) (hq : q.Matches e t) :
    (∀ r ∈ pre, ¬ r.Matches e t) ∧ ∀ r ∈ post, ¬ r.Matches e t := by
  obtain ⟨rfl, rfl⟩ := hq
  obtain ⟨-, hright, hcross⟩ := List.pairwise_append.mp h.keys
  refine ⟨fun r hr hmatch => ?_, fun r hr => (List.pairwise_cons.mp hright).1 r hr⟩
  exact hcross r hr q (List.mem_cons_self ..) ⟨hmatch.1.symm, hmatch.2.symm⟩

theorem node_ne (h : WaitQueues l b (pre ++ q :: post)) {r : Queue} (hr : r ∈ pre ++ post) :
    r.node ≠ q.node := by
  have hnodes := h.nodes
  rw [List.map_append, List.map_cons] at hnodes
  obtain ⟨-, hright, hdisjoint⟩ := List.nodup_append.mp hnodes
  rcases List.mem_append.mp hr with hr | hr
  · exact hdisjoint _ (List.mem_map_of_mem hr) _ (List.mem_cons_self ..)
  · exact fun he => (List.nodup_cons.mp hright).1 (he ▸ List.mem_map_of_mem hr)

theorem next_first (h : WaitQueues l b (pre ++ q :: post)) (hmem : q.members = i :: is) :
    l.next i = is.head? := by
  have hlinked := h.linked q (by simp)
  rw [hmem] at hlinked
  simpa using hlinked.1

theorem nil (hb : b.head = none) : WaitQueues l b [] :=
  ⟨hb, List.nodup_nil, by simp, List.Pairwise.nil, by simp, by simp, List.nodup_nil⟩

theorem empty_iff (h : WaitQueues l b qs) : b.head = none ↔ qs = [] := by
  have hchain := h.chain
  cases qs with
  | nil =>
    have hhead : b.head = none := hchain
    simp [hhead]
  | cons q qs =>
    have hhead : b.head = .some q.node := hchain.1
    simp [hhead]

/-- The queues that a pop leaves, given that the chain still holds them. -/
theorem popped (h : WaitQueues l b (pre ++ q :: post)) (hcreated : b'.created = b.created)
    (hchain : ChainSegment b' b'.head (pre ++ q.rest ++ post) none) :
    WaitQueues l b' (pre ++ q.rest ++ post) := by
  have hmember : ∀ r ∈ pre ++ q.rest ++ post, ∃ r₀ ∈ pre ++ q :: post, r.node = r₀.node ∧
      r.entry = r₀.entry ∧ r.type = r₀.type ∧ r.members ≠ [] ∧ r.members <:+ r₀.members := by
    intro r hr
    rcases List.mem_append.mp hr with hr | hr
    · rcases List.mem_append.mp hr with hr | hr
      · have hr₀ : r ∈ pre ++ q :: post := List.mem_append_left _ hr
        exact ⟨r, hr₀, rfl, rfl, rfl, h.some r hr₀, List.suffix_refl _⟩
      · obtain ⟨rfl, hne⟩ := Queue.mem_rest hr
        exact ⟨q, by simp, rfl, rfl, rfl, hne, List.tail_suffix _⟩
    · have hr₀ : r ∈ pre ++ q :: post := List.mem_append_right _ (List.mem_cons_of_mem _ hr)
      exact ⟨r, hr₀, rfl, rfl, rfl, h.some r hr₀, List.suffix_refl _⟩
  have hsublist : ∀ {α : Type} (f : Queue → α), f { q with members := q.members.tail } = f q →
      ((pre ++ q.rest ++ post).map f).Sublist ((pre ++ q :: post).map f) := by
    intro α f hf
    have hrest : (q.rest.map f).Sublist [f q] := by
      unfold Queue.rest
      split
      · exact List.nil_sublist _
      · rw [List.map_singleton, hf]
    simp only [List.map_append, List.map_cons, List.append_assoc]
    exact List.Sublist.append_left (hrest.append_right _) _
  refine ⟨hchain, h.nodes.sublist (hsublist Queue.node rfl), fun r hr => ?_, ?_, fun r hr => ?_,
    fun r hr => ?_, ?_⟩
  · obtain ⟨r₀, hr₀, hnode, -⟩ := hmember r hr
    rw [hnode, hcreated]
    exact h.created r₀ hr₀
  · have hkeys : ((pre ++ q :: post).map fun r => (r.entry, r.type)).Pairwise (· ≠ ·) := by
      rw [List.pairwise_map]
      refine h.keys.imp fun hne he => hne ⟨?_, ?_⟩
      · exact (Prod.mk.inj he).2.symm
      · exact (Prod.mk.inj he).1.symm
    have hkeys' := hkeys.sublist (hsublist (fun r => (r.entry, r.type)) rfl)
    rw [List.pairwise_map] at hkeys'
    refine hkeys'.imp fun hne hmatch => hne ?_
    rw [hmatch.1, hmatch.2]
  · obtain ⟨-, -, -, -, -, hne, -⟩ := hmember r hr
    exact hne
  · obtain ⟨r₀, hr₀, -, -, -, -, hsuffix⟩ := hmember r hr
    obtain ⟨front, hfront⟩ := hsuffix
    have hlinked := h.linked r₀ hr₀
    rw [← hfront, ForwardLinked.append] at hlinked
    exact hlinked.2
  · have honce := h.once
    simp only [List.flatMap_append, List.flatMap_cons, Queue.rest_members] at honce ⊢
    refine honce.sublist ?_
    rw [List.append_assoc]
    exact List.Sublist.append_left ((List.tail_sublist _).append_right _) _

end WaitQueues

/-! ### blocked_connections_add -/

theorem WaitQueues.pushed (hb : b.head = none) (i : Nat) (e : Option Pointer) (t : BlockType) :
    WaitQueues (l.detach i) (b.push i e t) [⟨b.created, e, t, [i]⟩] where
  chain := by
    refine ⟨rfl, none, ?_, rfl⟩
    simp [BlockedConnections.push, BlockedConnections.update, Queue.content, hb]
  nodes := List.nodup_singleton _
  created q hq := by
    rw [List.mem_singleton.mp hq]
    exact Nat.lt_succ_self b.created
  keys := List.pairwise_singleton ..
  some q hq := by
    rw [List.mem_singleton.mp hq]
    exact List.cons_ne_nil i []
  linked q hq := by
    rw [List.mem_singleton.mp hq]
    exact ⟨if_pos rfl, trivial⟩
  once := List.nodup_singleton i

/-- A connection is enqueued, and `blocked_connections_add` returns at all, exactly if no queue
exists yet and malloc gives a node for the new one. -/
theorem blockedConnectionsAdd_enqueues_iff (h : WaitQueues l b qs) (hi : i ∉ qs.flatMap Queue.members)
    (mallocFails : Bool) :
    (∃ l' b' qs', Returns (fun n => blockedConnectionsAdd mallocFails n i e t l b) (l', b') ∧
      WaitQueues l' b' qs' ∧ Enqueued i e t qs qs') ↔ qs = [] ∧ mallocFails = false := by
  constructor
  · rintro ⟨l', b', qs', hreturns, -⟩
    obtain ⟨hhead, hnode, -⟩ := blockedConnectionsAdd_returns.mp hreturns
    exact ⟨h.empty_iff.mp hhead, hnode⟩
  · rintro ⟨rfl, hnode⟩
    have hhead : b.head = none := h.chain
    refine ⟨_, _, _, blockedConnectionsAdd_returns.mpr ⟨hhead, hnode, rfl⟩,
      WaitQueues.pushed hhead i e t, ?_, fun q hq => ?_⟩
    · have hmatch : (⟨b.created, e, t, [i]⟩ : Queue).Matches e t := ⟨rfl, rfl⟩
      exact @queued_split [] [] _ e t (by simp) hmatch (by simp)
    · simp only [List.mem_singleton, List.not_mem_nil, iff_false]
      rintro rfl
      exact hq ⟨rfl, rfl⟩

theorem blockedConnectionsAdd_enqueues_first : ∃ l' b' qs',
    Returns (fun n => blockedConnectionsAdd false n 0 none .write ⟨fun _ => none, fun _ => none⟩
      blockedConnectionsOpen) (l', b') ∧
    WaitQueues l' b' qs' ∧ Enqueued 0 none .write [] qs' :=
  (blockedConnectionsAdd_enqueues_iff (WaitQueues.nil rfl) (by simp) false).mpr ⟨rfl, rfl⟩

/- Connection 0 waits for an entry; a second connection that has to wait is never queued. -/
theorem second_waiter_hangs :
    let l := Links.detach ⟨fun _ => none, fun _ => none⟩ 0
    let b := blockedConnectionsOpen.push 0 (some (ringPointer 0)) .read
    WaitQueues l b [⟨0, some (ringPointer 0), .read, [0]⟩] ∧
    ∀ n r, blockedConnectionsAdd false n 1 (some (ringPointer 0)) .read l b ≠ .ok r := by
  intro l b
  refine ⟨WaitQueues.pushed rfl 0 _ _, fun n r h => ?_⟩
  obtain ⟨hhead, -⟩ := blockedConnectionsAdd_returns.mp ⟨n, h⟩
  cases hhead

/-! ### blocked_connections_pop -/

theorem blockedConnectionsPop_steady : Steady fun n => blockedConnectionsPop n e t l b :=
  blockedConnectionsPopLoop_steady none b.head

theorem WaitQueues.pop_none (h : WaitQueues l b qs) (hqs : ∀ q ∈ qs, ¬ q.Matches e t) :
    Returns (fun n => blockedConnectionsPop n e t l b) (none, b) :=
  (popLoop_skip h.chain hqs).mpr popLoop_none

theorem WaitQueues.pop_some (h : WaitQueues l b (pre ++ q :: post)) (hq : q.Matches e t)
    (hmem : q.members = i :: is) :
    ∃ b', Returns (fun n => blockedConnectionsPop n e t l b) (.some i, b') ∧
      (pre = [] ∨ is ≠ [] → WaitQueues l b' (pre ++ q.rest ++ post)) ∧
      (pre ≠ [] → is = [] → ChainSegment b' b'.head pre (.some q.node) ∧ b'.lists q.node = none) := by
  obtain ⟨b', hpop, hcreated, hwhole, hcut⟩ := popLoop_some h.chain (fun r hr => h.node_ne hr)
    (h.no_other hq).1 hq hmem (h.next_first hmem)
  exact ⟨b', hpop, fun hfront => h.popped hcreated (hwhole hfront), hcut⟩

/-- A chain that leads to a freed node does not hold the queues behind it. -/
theorem not_waitQueues_of_cut (hcut : ChainSegment b' b'.head pre (some q.node))
    (hnodes : ∀ r ∈ post, r.node ≠ q.node) : ¬ WaitQueues l b' (pre ++ post) := by
  intro h
  obtain ⟨m, hpre, hpost⟩ := ChainSegment.append.mp h.chain
  have hm : m = some q.node := hpre.end_unique hcut
  cases post with
  | nil =>
    have hnone : m = none := hpost
    rw [hm] at hnone
    cases hnone
  | cons r post =>
    have hsome : m = some r.node := hpost.1
    rw [hm] at hsome
    exact hnodes r (List.mem_cons_self ..) (Option.some.inj hsome).symm

theorem WaitQueues.pop_first_iff (h : WaitQueues l b qs) :
    (∃ b', Returns (fun n => blockedConnectionsPop n e t l b) ((queued qs e t).head?, b') ∧
      WaitQueues l b' (dequeued qs e t)) ↔
      ∀ q ∈ qs.tail, q.Matches e t → q.members.tail ≠ [] := by
  by_cases hany : ∃ q ∈ qs, q.Matches e t
  · obtain ⟨q, hmemq, hq⟩ := hany
    obtain ⟨pre, post, rfl⟩ := List.append_of_mem hmemq
    obtain ⟨hpre, hpost⟩ := h.no_other hq
    obtain ⟨i, is, hmem⟩ := List.exists_cons_of_ne_nil (h.some q hmemq)
    obtain ⟨b', hpop, hwhole, hcut⟩ := h.pop_some hq hmem
    have htail : q.members.tail = is := by rw [hmem]; rfl
    rw [queued_split hpre hq hpost, dequeued_split hpre hq hpost, hmem]
    constructor
    · rintro ⟨b'', hreturns, hleft⟩ r hr hmatch hempty
      have hb : b'' = b' := (Prod.mk.inj (hreturns.unique blockedConnectionsPop_steady hpop)).2
      subst hb
      have hne : pre ≠ [] := by
        rintro rfl
        exact hpost r hr hmatch
      have hrq : r = q := by
        obtain ⟨x, xs, rfl⟩ := List.exists_cons_of_ne_nil hne
        rcases List.mem_append.mp hr with hr | hr
        · exact absurd hmatch (hpre r (List.mem_cons_of_mem _ hr))
        · rcases List.mem_cons.mp hr with hr | hr
          · exact hr
          · exact absurd hmatch (hpost r hr)
      subst hrq
      rw [htail] at hempty
      have hrest : r.rest = [] := if_pos (htail.trans hempty)
      rw [hrest, List.append_nil] at hleft
      exact not_waitQueues_of_cut (hcut hne hempty).1
        (fun x hx => h.node_ne (List.mem_append_right _ hx)) hleft
    · intro hcond
      refine ⟨b', hpop, hwhole ?_⟩
      cases pre with
      | nil => exact Or.inl rfl
      | cons x xs =>
        have hne := hcond q (by simp) hq
        exact Or.inr fun his => hne (htail.trans his)
  · have hnone : ∀ q ∈ qs, ¬ q.Matches e t := fun q hq hmatch => hany ⟨q, hq, hmatch⟩
    rw [queued_nil hnone, dequeued_none hnone]
    exact ⟨fun _ q hq hmatch => absurd hmatch (hnone q (List.mem_of_mem_tail hq)),
      fun _ => ⟨b, h.pop_none hnone, h⟩⟩

/-! ### Pops until none is left -/

/-- Behind another queue, the pop after the last waiter comes to a freed node. -/
theorem WaitQueues.not_drains (h : WaitQueues l b (pre ++ q :: post)) (hne : pre ≠ [])
    (hq : q.Matches e t) (is : List Nat) : ¬ Drains l e t b is b' := by
  generalize hlen : q.members.length = n
  induction n generalizing b q is with
  | zero => exact absurd (List.length_eq_zero_iff.mp hlen) (h.some q (by simp))
  | succ n ih =>
    obtain ⟨j, js, hmem⟩ := List.exists_cons_of_ne_nil (h.some q (by simp))
    obtain ⟨b₁, hpop, hwhole, hcut⟩ := h.pop_some hq hmem
    intro hdrains
    cases hdrains with
    | done pop =>
      have := pop.unique blockedConnectionsPop_steady hpop
      cases this
    | next pop rest =>
      have hpopped := pop.unique blockedConnectionsPop_steady hpop
      cases hpopped
      by_cases hjs : js = []
      · obtain ⟨hsegment, hfreed⟩ := hcut hne hjs
        have hstuck : ∀ r, ¬ Returns (fun n => blockedConnectionsPop n e t l b₁) r := fun r =>
          popLoop_dangling hsegment (h.no_other hq).1 hfreed
        cases rest with
        | done pop => exact hstuck _ pop
        | next pop rest => exact hstuck _ pop
      · have htail : q.members.tail = js := by rw [hmem]; rfl
        have hrest : q.rest = [{ q with members := js }] := by
          rw [Queue.rest, htail, if_neg hjs]
        have hleft := hwhole (Or.inr hjs)
        rw [hrest, List.append_assoc, List.singleton_append] at hleft
        refine ih hleft hq _ ?_ rest
        rw [hmem, List.length_cons] at hlen
        exact Nat.succ.inj hlen

/-- In the first queue every waiter comes out, in order, and then none. -/
theorem WaitQueues.drains_first (h : WaitQueues l b (q :: qs)) (hq : q.Matches e t) :
    ∃ b', Drains l e t b q.members b' ∧ WaitQueues l b' qs := by
  generalize hlen : q.members.length = n
  induction n generalizing b q with
  | zero => exact absurd (List.length_eq_zero_iff.mp hlen) (h.some q (by simp))
  | succ n ih =>
    obtain ⟨j, js, hmem⟩ := List.exists_cons_of_ne_nil (h.some q (by simp))
    have hsplit : WaitQueues l b ([] ++ q :: qs) := h
    obtain ⟨b₁, hpop, hwhole, -⟩ := hsplit.pop_some hq hmem
    have hleft := hwhole (Or.inl rfl)
    have htail : q.members.tail = js := by rw [hmem]; rfl
    rw [List.nil_append] at hleft
    by_cases hjs : js = []
    · have hrest : q.rest = [] := if_pos (htail.trans hjs)
      rw [hrest, List.nil_append] at hleft
      refine ⟨b₁, ?_, hleft⟩
      rw [hmem, hjs]
      exact .next hpop (.done (hleft.pop_none (hsplit.no_other hq).2))
    · have hrest : q.rest = [{ q with members := js }] := by
        rw [Queue.rest, htail, if_neg hjs]
      rw [hrest, List.singleton_append] at hleft
      rw [hmem, List.length_cons] at hlen
      obtain ⟨b', hdrains, hqueues⟩ := ih hleft hq (Nat.succ.inj hlen)
      refine ⟨b', ?_, hqueues⟩
      rw [hmem]
      exact .next hpop hdrains

theorem WaitQueues.drains_iff (h : WaitQueues l b qs) :
    (∃ b', Drains l e t b (queued qs e t) b' ∧
      WaitQueues l b' (qs.filter fun q => ¬ q.Matches e t)) ↔ ∀ q ∈ qs.tail, ¬ q.Matches e t := by
  have hfilter : ∀ rs : List Queue, (∀ r ∈ rs, ¬ r.Matches e t) →
      (rs.filter fun q => ¬ q.Matches e t) = rs := by
    intro rs hrs
    rw [List.filter_eq_self]
    exact fun r hr => decide_eq_true (hrs r hr)
  constructor
  · rintro ⟨b', hdrains, -⟩ q hq hmatch
    cases qs with
    | nil => cases hq
    | cons x xs =>
      obtain ⟨pre, post, hsplit⟩ := List.append_of_mem hq
      rw [List.tail_cons] at hsplit
      subst hsplit
      have hcons : WaitQueues l b ((x :: pre) ++ q :: post) := h
      exact hcons.not_drains (List.cons_ne_nil x pre) hmatch _ hdrains
  · intro htail
    cases qs with
    | nil => exact ⟨b, .done (h.pop_none (by simp)), h⟩
    | cons q qs =>
      by_cases hq : q.Matches e t
      · have hmembers : queued (q :: qs) e t = q.members :=
          @queued_split [] qs q e t (by simp) hq htail
        rw [hmembers, List.filter_cons, if_neg (by simpa using hq), hfilter qs htail]
        exact h.drains_first hq
      · have hnone : ∀ r ∈ q :: qs, ¬ r.Matches e t := by
          intro r hr
          rcases List.mem_cons.mp hr with rfl | hr
          · exact hq
          · exact htail r hr
        rw [queued_nil hnone, hfilter _ hnone]
        exact ⟨b, .done (h.pop_none hnone), h⟩

/-- One pop does what it should exactly if it does not empty a queue behind the first one, and
repeated pops for a key exactly if its queue is not behind the first one. -/
theorem blockedConnectionsPop_fifo_iff (h : WaitQueues l b qs) :
    ((∃ b', Returns (fun n => blockedConnectionsPop n e t l b) ((queued qs e t).head?, b') ∧
      WaitQueues l b' (dequeued qs e t)) ↔
        ∀ q ∈ qs.tail, q.Matches e t → q.members.tail ≠ []) ∧
    ((∃ b', Drains l e t b (queued qs e t) b' ∧
      WaitQueues l b' (qs.filter fun q => ¬ q.Matches e t)) ↔
        ∀ q ∈ qs.tail, ¬ q.Matches e t) :=
  ⟨h.pop_first_iff, h.drains_iff⟩

end

/-- Two connections wait in the first queue, one in the queue behind it. -/
def twoQueues : BlockedConnections where
  head := some 1
  lists i :=
    if i = 0 then some ⟨none, some 0, some 0, some (ringPointer 0), 1, .read⟩
    else if i = 1 then some ⟨some 0, some 1, some 2, some (ringPointer 0), 2, .write⟩
    else none
  created := 2

def twoWait : Links := ⟨fun _ => none, fun j => if j = 1 then some 2 else none⟩

theorem waitQueues_two : WaitQueues twoWait twoQueues
    [⟨1, some (ringPointer 0), .write, [1, 2]⟩, ⟨0, some (ringPointer 0), .read, [0]⟩] := by
  refine ⟨⟨rfl, some 0, rfl, rfl, none, rfl, rfl⟩, by decide, by decide, by decide, by decide, ?_,
    by decide⟩
  intro q hq
  rcases List.mem_cons.mp hq with rfl | hq
  · exact ⟨rfl, rfl, trivial⟩
  · rw [List.mem_singleton.mp hq]
    exact ⟨rfl, trivial⟩

theorem blockedConnectionsPop_fifo_two :
    (∃ b, Returns (fun n => blockedConnectionsPop n (some (ringPointer 0)) .write twoWait twoQueues)
        (some 1, b) ∧
      WaitQueues twoWait b
        [⟨1, some (ringPointer 0), .write, [2]⟩, ⟨0, some (ringPointer 0), .read, [0]⟩]) ∧
    ∃ b, Drains twoWait (some (ringPointer 0)) .write twoQueues [1, 2] b ∧
      WaitQueues twoWait b [⟨0, some (ringPointer 0), .read, [0]⟩] := by
  have hpop := blockedConnectionsPop_fifo_iff (e := some (ringPointer 0)) (t := .write) waitQueues_two
  exact ⟨hpop.1.mpr (by decide), hpop.2.mpr (by decide)⟩

/- Two queues of one connection each. The last one is freed, but stays in the chain: the next
walk that passes the first one runs into it. -/
theorem emptied_queue_stays_linked :
    let l := Links.detach (Links.detach ⟨fun _ => none, fun _ => none⟩ 0) 1
    let b := (blockedConnectionsOpen.push 0 (some (ringPointer 0)) .read).push 1
      (some (ringPointer 0)) .write
    WaitQueues l b [⟨1, some (ringPointer 0), .write, [1]⟩, ⟨0, some (ringPointer 0), .read, [0]⟩] ∧
    ∃ b', blockedConnectionsPop 2 (some (ringPointer 0)) .read l b = .ok (some 0, b') ∧
      ∀ n r, blockedConnectionsPop n (some (ringPointer 0)) .read l b' ≠ .ok r := by
  intro l b
  refine ⟨⟨⟨rfl, some 0, rfl, rfl, none, rfl, rfl⟩, by decide, by decide, by decide, by decide, ?_,
    by decide⟩, _, rfl, fun n r h => ?_⟩
  · intro q hq
    rcases List.mem_cons.mp hq with rfl | hq
    · exact ⟨rfl, trivial⟩
    · rw [List.mem_singleton.mp hq]
      exact ⟨rfl, trivial⟩
  · match n with
    | 0 => cases h
    | 1 => cases h
    | n + 2 => cases h

end CacheServer
