import CacheServer.Scheduler.Unblocking

/-!
# The chain of queues

A `Queue` is a node of the chain with the connections linked in it, `ChainSegment` a
stretch of the chain. `blocked_connections_pop` passes the queues of other
entries and types and takes the first connection of the first one that matches.
-/

namespace CacheServer

/-- A node of the chain and the connections linked in it. -/
structure Queue where
  node : Nat
  entry : Option Pointer
  type : BlockType
  members : List Nat

namespace Queue

def Matches (q : Queue) (e : Option Pointer) (t : BlockType) : Prop := q.type = t ∧ q.entry = e

instance (q : Queue) (e : Option Pointer) (t : BlockType) : Decidable (q.Matches e t) :=
  inferInstanceAs (Decidable (_ ∧ _))

/-- What the node holds. -/
def content (q : Queue) (next : Option Nat) : BlockedConnectionList :=
  ⟨next, q.members.head?, q.members.getLast?, q.entry, q.members.length, q.type⟩

end Queue

/-- The nodes of the queues follow each other from the pointer `p` to the pointer `e`. -/
def ChainSegment (b : BlockedConnections) : Option Nat → List Queue → Option Nat → Prop
  | p, [], e => p = e
  | p, q :: qs, e =>
    p = some q.node ∧ ∃ next, b.lists q.node = some (q.content next) ∧ ChainSegment b next qs e

namespace ChainSegment

variable {b b' : BlockedConnections} {p e : Option Nat} {q : Queue} {qs xs ys : List Queue}

theorem append : ChainSegment b p (xs ++ ys) e ↔ ∃ m, ChainSegment b p xs m ∧ ChainSegment b m ys e := by
  induction xs generalizing p with
  | nil => simp [ChainSegment]
  | cons x xs ih =>
    simp only [List.cons_append, ChainSegment, ih]
    constructor
    · rintro ⟨hp, next, hnode, m, hxs, hys⟩
      exact ⟨m, ⟨hp, next, hnode, hxs⟩, hys⟩
    · rintro ⟨m, ⟨hp, next, hnode, hxs⟩, hys⟩
      exact ⟨hp, next, hnode, m, hxs, hys⟩

theorem congr (h : ChainSegment b p qs e) (hb : ∀ q ∈ qs, b'.lists q.node = b.lists q.node) :
    ChainSegment b' p qs e := by
  induction qs generalizing p with
  | nil => exact h
  | cons q qs ih =>
    obtain ⟨hp, next, hnode, hrest⟩ := h
    exact ⟨hp, next, (hb q (by simp)).trans hnode,
      ih hrest fun r hr => hb r (List.mem_cons_of_mem _ hr)⟩

end ChainSegment

/-- What is left of a queue once its first connection is popped. -/
def Queue.rest (q : Queue) : List Queue :=
  if q.members.tail = [] then [] else [{ q with members := q.members.tail }]

theorem Queue.rest_members (q : Queue) : q.rest.flatMap Queue.members = q.members.tail := by
  unfold rest
  split
  · rename_i h
    rw [h]
    rfl
  · simp

theorem Queue.mem_rest {q r : Queue} (h : r ∈ q.rest) :
    r = { q with members := q.members.tail } ∧ r.members ≠ [] := by
  unfold rest at h
  split at h
  · cases h
  · rename_i hne
    rw [List.mem_singleton.mp h]
    exact ⟨rfl, hne⟩

section
variable {b : BlockedConnections} {l : Links} {e : Option Pointer} {t : BlockType} {q : Queue}
  {p prev m : Option Nat} {qs pre : List Queue} {r : Option Nat × BlockedConnections}

theorem popLoop_none : Returns (fun n => blockedConnectionsPopLoop e t l b n prev none) (none, b) :=
  ⟨1, rfl⟩

/-- A queue with another entry or type is passed. -/
theorem popLoop_pass {next : Option Nat} (hnode : b.lists q.node = some (q.content next))
    (hq : ¬ q.Matches e t) :
    Returns (fun n => blockedConnectionsPopLoop e t l b n prev (some q.node)) r ↔
      Returns (fun n => blockedConnectionsPopLoop e t l b n (some q.node) next) r := by
  rw [Returns.succ_iff fun _ h => by cases h]
  have heq : ∀ n, blockedConnectionsPopLoop e t l b (n + 1) prev (some q.node) =
      blockedConnectionsPopLoop e t l b n (some q.node) next := by
    intro n
    simp only [blockedConnectionsPopLoop, BlockedConnections.deref, hnode]
    exact if_neg hq
  simp only [heq]

theorem popLoop_skip (h : ChainSegment b p pre m) (hpre : ∀ q ∈ pre, ¬ q.Matches e t) :
    Returns (fun n => blockedConnectionsPopLoop e t l b n prev p) r ↔
      Returns (fun n => blockedConnectionsPopLoop e t l b n
        ((pre.getLast?.map Queue.node).or prev) m) r := by
  induction pre generalizing p prev with
  | nil =>
    have hpm : p = m := h
    rw [hpm]
    rfl
  | cons q pre ih =>
    obtain ⟨rfl, next, hnode, hrest⟩ := h
    rw [popLoop_pass hnode (hpre q (by simp)),
      ih hrest fun q hq => hpre q (List.mem_cons_of_mem _ hq)]
    have hlast : (((q :: pre).getLast?.map Queue.node).or prev) =
        ((pre.getLast?.map Queue.node).or (some q.node)) := by
      cases pre with
      | nil => rfl
      | cons x xs => rw [List.getLast?_cons_cons, List.getLast?_cons]; rfl
    rw [hlast]

/-- The first connection of a queue that matches; an emptied node is freed, and unlinked only
if it was the first. -/
theorem popLoop_hit {next : Option Nat} {i : Nat} {is : List Nat}
    (hnode : b.lists q.node = some (q.content next)) (hq : q.Matches e t)
    (hmem : q.members = i :: is) (hnext : l.next i = is.head?) :
    Returns (fun n => blockedConnectionsPopLoop e t l b n prev (some q.node)) r ↔
      r = (some i, if is = []
        then { b.update q.node none with head := if prev = none then next else b.head }
        else b.update q.node (some ({ q with members := is }.content next))) := by
  rw [Returns.succ_iff fun _ h => by cases h]
  have heq : ∀ n, blockedConnectionsPopLoop e t l b (n + 1) prev (some q.node) =
      .ok (some i, if is = []
        then { b.update q.node none with head := if prev = none then next else b.head }
        else b.update q.node (some ({ q with members := is }.content next))) := by
    intro n
    simp only [blockedConnectionsPopLoop, BlockedConnections.deref, hnode]
    refine (if_pos hq).trans ?_
    cases is with
    | nil => simp [blockedConnectionListPop, Queue.content, hmem, bind, Except.bind]
    | cons j js =>
      simp [blockedConnectionListPop, Queue.content, hmem, hnext, bind, Except.bind]
  simp only [heq]
  rw [Returns.const_iff]
  exact ⟨fun h => (Except.ok.inj h).symm, fun h => congrArg Except.ok h.symm⟩

/-- The first queue that matches loses its first connection. If that empties it, the chain stays
whole only if it was the first one. -/
theorem popLoop_some {post : List Queue} {i : Nat} {is : List Nat}
    (h : ChainSegment b b.head (pre ++ q :: post) none)
    (hnodes : ∀ r ∈ pre ++ post, r.node ≠ q.node) (hpre : ∀ q ∈ pre, ¬ q.Matches e t)
    (hq : q.Matches e t) (hmem : q.members = i :: is) (hnext : l.next i = is.head?) :
    ∃ b', Returns (fun n => blockedConnectionsPopLoop e t l b n none b.head) (some i, b') ∧
      b'.created = b.created ∧
      (pre = [] ∨ is ≠ [] → ChainSegment b' b'.head (pre ++ q.rest ++ post) none) ∧
      (pre ≠ [] → is = [] → ChainSegment b' b'.head pre (some q.node) ∧ b'.lists q.node = none) := by
  obtain ⟨m, hpreseg, rfl, next, hnode, hpost⟩ := ChainSegment.append.mp h
  have hframe : ∀ x, ∀ r ∈ pre ++ post, (b.update q.node x).lists r.node = b.lists r.node :=
    fun x r hr => if_neg (hnodes r hr)
  have hpre' : ∀ b' : BlockedConnections, ∀ x, b'.lists = (b.update q.node x).lists →
      ChainSegment b' b.head pre (some q.node) := fun b' x hb => hpreseg.congr fun r hr => by
    rw [hb, hframe x r (List.mem_append_left _ hr)]
  have hpost' : ∀ b' : BlockedConnections, ∀ x, b'.lists = (b.update q.node x).lists →
      ChainSegment b' next post none := fun b' x hb => hpost.congr fun r hr => by
    rw [hb, hframe x r (List.mem_append_right _ hr)]
  have htail : q.members.tail = is := by rw [hmem]; rfl
  refine ⟨_, (popLoop_skip hpreseg hpre).mpr ((popLoop_hit hnode hq hmem hnext).mpr rfl), ?_,
    fun hfront => ?_, fun hne his => ?_⟩
  · split <;> rfl
  · by_cases his : is = []
    · have hnil : pre = [] := hfront.resolve_right fun hne => hne his
      subst hnil
      rw [Queue.rest, if_pos (htail.trans his), if_pos his]
      exact hpost' _ none rfl
    · rw [Queue.rest, if_neg fun he => his (htail.symm.trans he), if_neg his, htail]
      refine ChainSegment.append.mpr ⟨next, ChainSegment.append.mpr
        ⟨some q.node, hpre' _ (some _) rfl, rfl, next, if_pos rfl, rfl⟩, hpost' _ (some _) rfl⟩
  · rw [if_pos his]
    have hlast : ((pre.getLast?.map Queue.node).or none) ≠ none := by
      simpa using hne
    rw [if_neg hlast]
    exact ⟨hpre' _ none rfl, if_pos rfl⟩

/-- A walk that comes to a freed node does not return. -/
theorem popLoop_dangling {d : Nat} (h : ChainSegment b p pre (some d))
    (hpre : ∀ q ∈ pre, ¬ q.Matches e t) (hd : b.lists d = none) :
    ¬ Returns (fun n => blockedConnectionsPopLoop e t l b n prev p) r := by
  rw [popLoop_skip h hpre]
  rintro ⟨n, hn⟩
  cases n with
  | zero => cases hn
  | succ n =>
    simp only [blockedConnectionsPopLoop, BlockedConnections.deref, hd] at hn
    cases hn

end

end CacheServer
