import CacheServer.Scheduler.ActiveList

/-!
# Runs of the connection list

The reference is a list of connections: an append adds at the end, a removal
takes out one element. connection_list.c follows it unless a connection that
still has the links of an earlier stay is appended to the empty list, where
`connection_list_append` writes no link.
-/

namespace CacheServer

inductive ListCall where
  | append (connection : Nat)
  | remove (connection : Nat)
  deriving DecidableEq, Repr

namespace ListCall

def apply : ListCall → Links × ConnectionList → Except Fault (Links × ConnectionList)
  | append i, (l, list) => connectionListAppend i l list
  | remove i, (l, list) => connectionListRemove i l list

/-- What the call makes of the reference sequence. -/
def reference : ListCall → List Nat → List Nat
  | append i, xs => xs ++ [i]
  | remove i, xs => xs.erase i

/-- Only connections outside the list are appended, only those in it are removed. -/
def Allowed : ListCall → List Nat → Prop
  | append i, xs => i ∉ xs
  | remove i, xs => i ∈ xs

/-- A connection that is appended to the empty list has no links. -/
def Clean : ListCall → Links → List Nat → Prop
  | append i, l, xs => xs = [] → l.detached i
  | remove _, _, _ => True

instance (call : ListCall) (xs : List Nat) : Decidable (call.Allowed xs) :=
  match call with
  | append i => inferInstanceAs (Decidable (i ∉ xs))
  | remove i => inferInstanceAs (Decidable (i ∈ xs))

end ListCall

/-- The list as a caller can see it, against the reference sequence. -/
structure IsSequence (r : Links × ConnectionList) (xs : List Nat) : Prop where
  forward : Visits r.1.next r.2.head xs
  backward : Visits r.1.previous r.2.tail xs.reverse
  first : r.2.head = xs.head?
  last : r.2.tail = xs.getLast?
  count : xs.length < 2 ^ 16 → r.2.count = xs.length

/-- Runs from `connection_list_open`, on connections as `connection_init` leaves them. -/
inductive ListRun : Links × ConnectionList → List Nat → Prop
  | opened : ListRun (⟨fun _ => none, fun _ => none⟩, connectionListOpen) []
  | called {r r' : Links × ConnectionList} {xs : List Nat} (call : ListCall) (run : ListRun r xs)
      (allowed : call.Allowed xs) (clean : call.Clean r.1 xs) (step : call.apply r = .ok r') :
      ListRun r' (call.reference xs)

/-- What a run keeps. -/
structure Chained (r : Links × ConnectionList) (xs : List Nat) : Prop where
  chain : r.1.Chain r.2 xs
  count : r.2.count = xs.length % 2 ^ 16

section
variable {r r' : Links × ConnectionList} {l l' : Links} {list list' : ConnectionList} {i : Nat}
  {xs : List Nat}

theorem Chained.isSequence (h : Chained r xs) : IsSequence r xs where
  forward := by
    have hvisits : Visits r.1.next xs.head? xs := h.chain.forward.visits
    rw [h.chain.head]
    exact hvisits
  backward := by
    have hvisits : Visits r.1.previous xs.getLast? xs.reverse := h.chain.backward.visits
    rw [h.chain.tail]
    exact hvisits
  first := h.chain.head
  last := h.chain.tail
  count hlt := by rw [h.count, Nat.mod_eq_of_lt hlt]

/-! ### The count -/

theorem connectionListAppend_count (h : connectionListAppend i l list = .ok (l', list')) :
    list'.count = (list.count + 1) % 2 ^ 16 := by
  unfold connectionListAppend at h
  cases hhead : list.head with
  | none =>
    rw [hhead] at h
    cases h
    rfl
  | some x =>
    rw [hhead] at h
    cases htail : list.tail with
    | none =>
      rw [htail] at h
      cases h
    | some z =>
      rw [htail] at h
      cases h
      rfl

theorem unlinkPrevious_count (h : unlinkPrevious i l list = .ok (l', list')) :
    list'.count = list.count := by
  unfold unlinkPrevious at h
  split at h
  · split at h
    · cases h
      rfl
    · cases h
  · cases hnext : l.next i with
    | none =>
      rw [hnext] at h
      cases h
    | some z =>
      rw [hnext] at h
      cases h
      rfl

theorem unlinkNext_count (h : unlinkNext i l list = .ok (l', list')) :
    list'.count = list.count := by
  unfold unlinkNext at h
  split at h
  · split at h
    · cases h
      rfl
    · cases h
  · cases hprevious : l.previous i with
    | none =>
      rw [hprevious] at h
      cases h
    | some z =>
      rw [hprevious] at h
      cases h
      rfl

theorem connectionListRemove_count (h : connectionListRemove i l list = .ok (l', list')) :
    list'.count = (list.count + (2 ^ 16 - 1)) % 2 ^ 16 := by
  unfold connectionListRemove at h
  cases hfirst : unlinkPrevious i l { list with count := (list.count + (2 ^ 16 - 1)) % 2 ^ 16 } with
  | error fault =>
    rw [hfirst] at h
    cases h
  | ok r =>
    obtain ⟨l₁, list₁⟩ := r
    rw [hfirst] at h
    have hsecond : list'.count = list₁.count := unlinkNext_count h
    have hcount := unlinkPrevious_count hfirst
    rw [hsecond, hcount]

/-! ### One call -/

theorem Chained.append (h : Chained r xs) (hi : i ∉ xs) (hfree : xs = [] → r.1.detached i) :
    ∃ r', (ListCall.append i).apply r = .ok r' ∧ Chained r' (xs ++ [i]) := by
  obtain ⟨l', list', happend, hchain, -⟩ := connectionListAppend_chain h.chain hi hfree
  refine ⟨(l', list'), happend, hchain, ?_⟩
  have hcount := connectionListAppend_count happend
  rw [hcount, h.count, List.length_append, List.length_singleton]
  omega

theorem Chained.remove (h : Chained r xs) (hi : i ∈ xs) :
    ∃ r', (ListCall.remove i).apply r = .ok r' ∧ Chained r' (xs.erase i) := by
  obtain ⟨a, b, hab⟩ := List.append_of_mem hi
  have hchain := h.chain
  rw [hab] at hchain
  have hia : i ∉ a := fun ha => (List.nodup_append.mp hchain.nodup).2.2 i ha i (by simp) rfl
  have herase : xs.erase i = a ++ b := by
    rw [hab, List.erase_append_right _ hia, List.erase_cons_head]
  obtain ⟨l', list', hremove, hchain', -⟩ := connectionListRemove_chain hchain
  refine ⟨(l', list'), hremove, ?_, ?_⟩
  · rw [herase]
    exact hchain'
  · have hcount := connectionListRemove_count hremove
    have hlen := h.count
    rw [hab] at hlen
    rw [hcount, hlen, herase, List.length_append, List.length_append, List.length_cons]
    omega

theorem Chained.call (h : Chained r xs) (call : ListCall) (allowed : call.Allowed xs)
    (clean : call.Clean r.1 xs) :
    ∃ r', call.apply r = .ok r' ∧ Chained r' (call.reference xs) := by
  cases call with
  | append i => exact h.append allowed clean
  | remove i => exact h.remove allowed

/-- An append to the empty list leaves the links of the connection as they were. -/
theorem IsSequence.clean (h : Chained r xs) {call : ListCall} (step : call.apply r = .ok r')
    (hs : IsSequence r' (call.reference xs)) : call.Clean r.1 xs := by
  cases call with
  | remove i => trivial
  | append i =>
    rintro rfl
    obtain ⟨l, list⟩ := r
    have hhead : list.head = none := h.chain.head
    simp only [ListCall.apply, connectionListAppend, hhead] at step
    cases step
    exact ⟨hs.backward.2, hs.forward.2⟩

theorem ListRun.chained (run : ListRun r xs) : Chained r xs := by
  induction run with
  | opened => exact ⟨Linked.nil, rfl⟩
  | called call run allowed clean step ih =>
    obtain ⟨r', hstep, hchained⟩ := ih.call call allowed clean
    rw [step] at hstep
    cases hstep
    exact hchained

/-- Runs follow the reference sequence, and the next call does exactly if it is clean. -/
theorem connectionList_sequence_iff (run : ListRun r xs) :
    IsSequence r xs ∧ ∀ call : ListCall, call.Allowed xs →
      ((∃ r', call.apply r = .ok r' ∧ IsSequence r' (call.reference xs)) ↔ call.Clean r.1 xs) := by
  have hchained := run.chained
  refine ⟨hchained.isSequence, fun call allowed => ⟨?_, fun clean => ?_⟩⟩
  · rintro ⟨r', hstep, hsequence⟩
    exact hsequence.clean hchained hstep
  · obtain ⟨r', hstep, hnext⟩ := hchained.call call allowed clean
    exact ⟨r', hstep, hnext.isSequence⟩

end

theorem connectionList_sequence_two : ∃ r, IsSequence r [0, 1] := by
  have hfirst : ListRun _ [0] :=
    .called (.append 0) .opened (by decide) (fun _ => ⟨rfl, rfl⟩) rfl
  have hsecond : ListRun _ [0, 1] :=
    .called (.append 1) hfirst (by decide) (fun h => by cases h) rfl
  exact ⟨_, (connectionList_sequence_iff hsecond).1⟩

/-- Allowed calls one after the other, with the reference sequence beside. -/
def listCalls : List ListCall → (Links × ConnectionList) × List Nat →
    Except Fault ((Links × ConnectionList) × List Nat)
  | [], state => .ok state
  | call :: calls, (r, xs) =>
    if call.Allowed xs then do
      let r ← call.apply r
      listCalls calls (r, call.reference xs)
    else .error .assertion

/- Connection 0 was in front of connection 1 when it was removed; appended to the empty list
it still leads there. -/
theorem connectionList_stale_links : ∃ r,
    listCalls [.append 0, .append 1, .remove 0, .remove 1, .append 0]
      ((⟨fun _ => none, fun _ => none⟩, connectionListOpen), []) = .ok (r, [0]) ∧
    r.1.next 0 = some 1 ∧ ¬ IsSequence r [0] := by
  refine ⟨_, rfl, rfl, fun h => ?_⟩
  have hnext : some 1 = none := h.forward.2
  cases hnext

end CacheServer
