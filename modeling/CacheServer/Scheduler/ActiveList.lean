import CacheServer.Library.LinkedChain
import CacheServer.Model.Server

/-!
# The active list

`Server.Active` says which connections the list of a server holds. Appending and
removing keep it a doubly linked list and leave the links of all others alone.
-/

namespace CacheServer

/-- The connections of the list, in order. -/
def Links.Chain (l : Links) (list : ConnectionList) (xs : List Nat) : Prop :=
  Linked l.previous l.next list.head list.tail xs

/-- The same links outside `xs`. -/
def Links.Outside (l l' : Links) (xs : List Nat) : Prop :=
  ∀ j, j ∉ xs → l'.previous j = l.previous j ∧ l'.next j = l.next j

def Links.detached (l : Links) (i : Nat) : Prop := l.previous i = none ∧ l.next i = none

section
variable {l : Links} {list : ConnectionList} {i : Nat} {xs a b : List Nat}

theorem connectionListAppend_chain (h : l.Chain list xs) (hi : i ∉ xs)
    (hfree : xs = [] → l.detached i) :
    ∃ l' list', connectionListAppend i l list = .ok (l', list') ∧ l'.Chain list' (xs ++ [i]) ∧
      l.Outside l' (xs ++ [i]) := by
  obtain ⟨head, tail, count⟩ := list
  rcases List.eq_nil_or_concat' xs with rfl | ⟨ys, z, rfl⟩
  · obtain ⟨hp, hn⟩ := hfree rfl
    have hhead : head = none := h.head
    subst hhead
    exact ⟨l, _, rfl, Linked.singleton hp hn, fun j _ => ⟨rfl, rfl⟩⟩
  · have htail : tail = some z := by simpa using h.tail
    have hiz : i ≠ z := fun he => hi (by simp [he])
    have hys : ∀ y ∈ ys, y ≠ z := fun y hy he =>
      (List.nodup_append.mp h.nodup).2.2 y hy z (by simp) he
    cases hhead : head with
    | none => exact absurd (h.eq_nil_iff.mpr hhead) (by simp)
    | some x =>
      subst hhead htail
      refine ⟨_, _, rfl, Linked.append h hi ?_ ?_ ?_ ?_ ?_, ?_⟩
      · simp
      · simp [hiz]
      · simp
      · intro y hy
        have hyi : y ≠ i := fun he => hi (he ▸ hy)
        simp [hyi]
      · intro y hy
        have hyi : y ≠ i := fun he => hi (he ▸ List.mem_append_left _ hy)
        simp [hyi, hys y hy]
      · intro j hj
        have hji : j ≠ i := fun he => hj (by simp [he])
        have hjz : j ≠ z := fun he => hj (by simp [he])
        simp [hji, hjz]

/-- Each half writes one link: the one that leads to `i` from its neighbour. -/
theorem unlinkPrevious_chain (h : l.Chain list (a ++ i :: b)) (count : Nat) :
    ∃ l', unlinkPrevious i l ⟨list.head, list.tail, count⟩ =
        .ok (l', ⟨list.head, if b = [] then a.getLast? else list.tail, count⟩) ∧
      l'.next = l.next ∧
      ∀ j, l'.previous j = if b.head? = some j then a.getLast? else l.previous j := by
  have hnext : l.next i = b.head? := h.next_eq
  have hprevious : l.previous i = a.getLast? := h.previous_eq
  unfold unlinkPrevious
  cases b with
  | nil =>
    have htail : list.tail = some i := by simpa using h.tail
    exact ⟨l, by simp [htail, hnext, hprevious], rfl, fun j => by simp⟩
  | cons y ys =>
    have htail : list.tail ≠ some i := by
      intro he
      have hlast : (a ++ i :: y :: ys).getLast? = (y :: ys).getLast? := by
        rw [List.getLast?_append, List.getLast?_cons_cons]
        simp [List.getLast?_cons]
      rw [h.tail, hlast] at he
      exact (List.nodup_cons.mp (List.nodup_append.mp h.nodup).2.1).1 (List.mem_of_getLast? he)
    refine ⟨{ l with previous := fun j => if j = y then a.getLast? else l.previous j }, ?_, rfl, ?_⟩
    · rw [if_neg htail, hnext, hprevious]
      rfl
    · intro j
      simp [eq_comm]

theorem unlinkNext_chain {l₀ : Links} {tail : Option Nat} (h : l₀.Chain list (a ++ i :: b))
    (hn : l.next = l₀.next) (hp : l.previous i = l₀.previous i) (count : Nat) :
    ∃ l', unlinkNext i l ⟨list.head, tail, count⟩ =
        .ok (l', ⟨(a ++ b).head?, tail, count⟩) ∧
      l'.previous = l.previous ∧
      ∀ j, l'.next j = if a.getLast? = some j then b.head? else l.next j := by
  have hnext : l.next i = b.head? := by rw [hn, h.next_eq]
  have hprevious : l.previous i = a.getLast? := by rw [hp, h.previous_eq]
  unfold unlinkNext
  rcases List.eq_nil_or_concat' a with rfl | ⟨as, z, rfl⟩
  · have hhead : list.head = some i := by simpa using h.head
    exact ⟨l, by simp [hhead, hnext, hprevious], rfl, fun j => by simp⟩
  · have hfirst : ∀ xs : List Nat, (as ++ [z] ++ xs).head? = (as ++ [z]).head? := by
      intro xs
      rw [List.head?_append]
      simp
    have hhead : list.head ≠ some i := by
      intro he
      rw [h.head, hfirst] at he
      exact (List.nodup_append.mp h.nodup).2.2 i (List.mem_of_mem_head? he) i (by simp) rfl
    refine ⟨{ l with next := fun j => if j = z then b.head? else l.next j }, ?_, rfl, ?_⟩
    · rw [if_neg hhead, hprevious, hnext, hfirst, h.head, hfirst]
      simp [Links.setNext]
      rfl
    · intro j
      simp [eq_comm]

theorem connectionListRemove_chain (h : l.Chain list (a ++ i :: b)) :
    ∃ l' list', connectionListRemove i l list = .ok (l', list') ∧ l'.Chain list' (a ++ b) ∧
      l.Outside l' (a ++ b) := by
  obtain ⟨l₁, hprevious, hn₁, hp₁⟩ :=
    unlinkPrevious_chain h ((list.count + (2 ^ 16 - 1)) % 2 ^ 16)
  have hnodup := List.nodup_append.mp h.nodup
  have hib : b.head? ≠ some i := fun he =>
    (List.nodup_cons.mp hnodup.2.1).1 (List.mem_of_mem_head? he)
  have hfix : l₁.previous i = l.previous i := by rw [hp₁, if_neg hib]
  obtain ⟨l₂, hnext, hp₂, hn₂⟩ := @unlinkNext_chain l₁ list i a b l
    (if b = [] then a.getLast? else list.tail) h hn₁ hfix ((list.count + (2 ^ 16 - 1)) % 2 ^ 16)
  have htail : (if b = [] then a.getLast? else list.tail) = (a ++ b).getLast? := by
    cases b with
    | nil => simp
    | cons y ys =>
      rw [if_neg (by simp), h.tail, List.getLast?_append, List.getLast?_append,
        List.getLast?_cons_cons]
  rw [htail] at hprevious hnext
  refine ⟨l₂, ⟨(a ++ b).head?, (a ++ b).getLast?, (list.count + (2 ^ 16 - 1)) % 2 ^ 16⟩,
    ?_, ?_, ?_⟩
  · unfold connectionListRemove
    rw [hprevious]
    exact hnext
  · have hp : ∀ y, b.head? ≠ some y → l₂.previous y = l.previous y := by
      intro y hy
      rw [hp₂, hp₁, if_neg hy]
    have hn : ∀ y, a.getLast? ≠ some y → l₂.next y = l.next y := by
      intro y hy
      rw [hn₂, if_neg hy, hn₁]
    refine Linked.remove (x := i) h ?_ ?_ ?_ ?_ ?_ ?_
    · intro y hy
      refine hn y fun he => ?_
      rcases List.eq_nil_or_concat' a with rfl | ⟨as, z, rfl⟩
      · cases hy
      · rw [List.dropLast_concat] at hy
        have hyz : z = y := by simpa using he
        exact (List.nodup_append.mp hnodup.1).2.2 y hy z (by simp) hyz.symm
    · intro z hz
      rw [hn₂, if_pos (Option.mem_def.mp hz)]
    · intro y hy
      exact hn y fun he => hnodup.2.2 y (List.mem_of_getLast? he) y (List.mem_cons_of_mem _ hy) rfl
    · intro y hy
      exact hp y fun he =>
        hnodup.2.2 y hy y (List.mem_cons_of_mem _ (List.mem_of_mem_head? he)) rfl
    · intro z hz
      rw [hp₂, hp₁, if_pos (Option.mem_def.mp hz)]
    · intro y hy
      refine hp y fun he => ?_
      cases b with
      | nil => cases hy
      | cons z zs =>
        have hyz : z = y := by simpa using he
        exact (List.nodup_cons.mp (List.nodup_cons.mp hnodup.2.1).2).1 (hyz ▸ hy)
  · intro j hj
    have hja : a.getLast? ≠ some j := fun he =>
      hj (List.mem_append_left _ (List.mem_of_getLast? he))
    have hjb : b.head? ≠ some j := fun he =>
      hj (List.mem_append_right _ (List.mem_of_mem_head? he))
    rw [hp₂, hp₁, hn₂, hn₁, if_neg hja, if_neg hjb]
    exact ⟨rfl, rfl⟩

/- A connection whose links were reset while it was in the list: only a list of one survives. -/
theorem connectionListRemove_detached (h : l.detached i) :
    connectionListRemove i l list =
      if list.tail = some i ∧ list.head = some i then
        .ok (l, ⟨none, none, (list.count + (2 ^ 16 - 1)) % 2 ^ 16⟩)
      else .error .nullPointer := by
  obtain ⟨hp, hn⟩ := h
  unfold connectionListRemove unlinkPrevious unlinkNext
  by_cases ht : list.tail = some i
  · by_cases hh : list.head = some i
    · simp [ht, hh, hp, hn, bind, Except.bind]
    · simp [ht, hh, hp, hn, Links.setNext, bind, Except.bind]
  · simp [ht, hn, Links.setPrevious, bind, Except.bind]

end

namespace Server

def Active (s : Server) (xs : List Nat) : Prop := s.links.Chain s.list xs

variable {s : Server} {i : Nat} {xs a b : List Nat}

theorem append_active (h : s.Active xs) (hi : i ∉ xs) (hfree : xs = [] → s.links.detached i) :
    ∃ links list, s.append i = .ok { s with links, list } ∧ links.Chain list (xs ++ [i]) ∧
      s.links.Outside links (xs ++ [i]) := by
  obtain ⟨links, list, happend, hchain, hout⟩ := connectionListAppend_chain h hi hfree
  refine ⟨links, list, ?_, hchain, hout⟩
  unfold append
  rw [happend]
  rfl

theorem remove_active (h : s.Active (a ++ i :: b)) :
    ∃ links list, s.remove i = .ok { s with links, list } ∧ links.Chain list (a ++ b) ∧
      s.links.Outside links (a ++ b) := by
  obtain ⟨links, list, hremove, hchain, hout⟩ := connectionListRemove_chain h
  refine ⟨links, list, ?_, hchain, hout⟩
  unfold remove
  rw [hremove]
  rfl

end Server

end CacheServer
