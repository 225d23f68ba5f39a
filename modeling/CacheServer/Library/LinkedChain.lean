import Mathlib.Data.List.Basic
import Mathlib.Data.List.Induction
import Mathlib.Data.List.Nodup

/-!
# Doubly linked lists

Two functions `previous` and `next` link the elements of a list; the element at
each end links to `none` there. A write to one link is given by what it changes:
the new function agrees with the old one on every other element.
-/

variable {α : Type*}

/-- Every element of the list links to the one after it, the last one to `e`. -/
def ForwardLinked (next : α → Option α) : List α → Option α → Prop
  | [], _ => True
  | x :: xs, e => next x = xs.head?.or e ∧ ForwardLinked next xs e

/-- Every element of the list links to the one before it, the first one to `p`. -/
def BackwardLinked (previous : α → Option α) : Option α → List α → Prop
  | _, [] => True
  | p, x :: xs => previous x = p ∧ BackwardLinked previous (some x) xs

namespace ForwardLinked

instance decidable [DecidableEq α] (next : α → Option α) (e : Option α) :
    (xs : List α) → Decidable (ForwardLinked next xs e)
  | [] => inferInstanceAs (Decidable True)
  | _ :: xs => have := decidable next e xs; inferInstanceAs (Decidable (_ ∧ _))

variable {next next' : α → Option α} {xs ys : List α} {x : α} {e e' : Option α}

theorem append :
    ForwardLinked next (xs ++ ys) e ↔
      ForwardLinked next xs (ys.head?.or e) ∧ ForwardLinked next ys e := by
  induction xs with
  | nil => simp [ForwardLinked]
  | cons x xs ih =>
    simp only [List.cons_append, ForwardLinked, ih, List.head?_append, Option.or_assoc, and_assoc]

theorem congr (h : ForwardLinked next xs e) (hn : ∀ x ∈ xs, next' x = next x) :
    ForwardLinked next' xs e := by
  induction xs with
  | nil => trivial
  | cons x xs ih =>
    refine ⟨?_, ih h.2 fun y hy => hn y (List.mem_cons_of_mem _ hy)⟩
    rw [hn x (List.mem_cons_self ..)]
    exact h.1

theorem snoc : ForwardLinked next (xs ++ [x]) e ↔ ForwardLinked next xs (some x) ∧ next x = e := by
  rw [append]
  simp [ForwardLinked]

/-- A write to the link of the last element moves the end. -/
theorem retarget (h : ForwardLinked next (xs ++ [x]) e) (hx : next' x = e')
    (hn : ∀ y ∈ xs, next' y = next y) : ForwardLinked next' (xs ++ [x]) e' :=
  snoc.mpr ⟨(snoc.mp h).1.congr hn, hx⟩

end ForwardLinked

namespace BackwardLinked

instance decidable [DecidableEq α] (previous : α → Option α) :
    (p : Option α) → (xs : List α) → Decidable (BackwardLinked previous p xs)
  | _, [] => inferInstanceAs (Decidable True)
  | _, x :: xs => have := decidable previous (some x) xs; inferInstanceAs (Decidable (_ ∧ _))

variable {previous previous' : α → Option α} {xs ys : List α} {x : α} {p p' : Option α}

theorem append :
    BackwardLinked previous p (xs ++ ys) ↔
      BackwardLinked previous p xs ∧ BackwardLinked previous (xs.getLast?.or p) ys := by
  induction xs generalizing p with
  | nil => simp [BackwardLinked]
  | cons x xs ih =>
    have hlast : (x :: xs).getLast?.or p = xs.getLast?.or (some x) := by
      cases xs with
      | nil => rfl
      | cons y ys => rw [List.getLast?_cons_cons, List.getLast?_cons]; rfl
    simp only [List.cons_append, BackwardLinked, ih, and_assoc, hlast]

theorem congr (h : BackwardLinked previous p xs) (hp : ∀ x ∈ xs, previous' x = previous x) :
    BackwardLinked previous' p xs := by
  induction xs generalizing p with
  | nil => trivial
  | cons x xs ih =>
    refine ⟨?_, ih h.2 fun y hy => hp y (List.mem_cons_of_mem _ hy)⟩
    rw [hp x (List.mem_cons_self ..)]
    exact h.1

/-- A write to the link of the first element moves the start. -/
theorem retarget (h : BackwardLinked previous p (x :: xs)) (hx : previous' x = p')
    (hp : ∀ y ∈ xs, previous' y = previous y) : BackwardLinked previous' p' (x :: xs) :=
  ⟨hx, h.2.congr hp⟩

end BackwardLinked

/-- Following `f` from `p` visits exactly the elements of the list and then ends. -/
def Visits (f : α → Option α) : Option α → List α → Prop
  | p, [] => p = none
  | p, x :: xs => p = some x ∧ Visits f (f x) xs

theorem Visits.head {f : α → Option α} {p : Option α} {xs : List α} (h : Visits f p xs) :
    p = xs.head? := by
  cases xs with
  | nil => exact h
  | cons x xs => exact h.1

theorem Visits.unique {f : α → Option α} {p : Option α} {xs ys : List α} (h : Visits f p xs)
    (h' : Visits f p ys) : xs = ys := by
  induction xs generalizing p ys with
  | nil =>
    have hend : p = none := h
    have hhead := hend.symm.trans h'.head
    exact (List.head?_eq_none_iff.mp hhead.symm).symm
  | cons x xs ih =>
    cases ys with
    | nil => cases h.1.symm.trans h'
    | cons y ys =>
      cases h.1.symm.trans h'.1
      rw [ih h.2 h'.2]

theorem ForwardLinked.visits {next : α → Option α} {xs : List α} (h : ForwardLinked next xs none) :
    Visits next xs.head? xs := by
  induction xs with
  | nil => rfl
  | cons x xs ih =>
    have hnext : next x = xs.head? := by simpa using h.1
    refine ⟨rfl, ?_⟩
    rw [hnext]
    exact ih h.2

theorem BackwardLinked.visits {previous : α → Option α} {xs : List α}
    (h : BackwardLinked previous none xs) : Visits previous xs.getLast? xs.reverse := by
  induction xs using List.reverseRecOn with
  | nil => rfl
  | append_singleton xs x ih =>
    obtain ⟨hxs, hx, -⟩ := BackwardLinked.append.mp h
    have hprevious : previous x = xs.getLast? := by simpa using hx
    rw [List.reverse_append, List.reverse_singleton, List.singleton_append, List.getLast?_concat]
    refine ⟨rfl, ?_⟩
    rw [hprevious]
    exact ih hxs

structure Linked (previous next : α → Option α) (head tail : Option α) (xs : List α) : Prop where
  nodup : xs.Nodup
  head : head = xs.head?
  tail : tail = xs.getLast?
  forward : ForwardLinked next xs none
  backward : BackwardLinked previous none xs

namespace Linked

variable {previous next previous' next' : α → Option α} {head tail : Option α} {x z : α}
  {xs a b : List α}

instance decidable [DecidableEq α] : Decidable (Linked previous next head tail xs) :=
  decidable_of_iff (xs.Nodup ∧ head = xs.head? ∧ tail = xs.getLast? ∧ ForwardLinked next xs none ∧
      BackwardLinked previous none xs)
    ⟨fun ⟨hd, hh, ht, hf, hb⟩ => ⟨hd, hh, ht, hf, hb⟩, fun ⟨hd, hh, ht, hf, hb⟩ => ⟨hd, hh, ht, hf, hb⟩⟩

theorem nil : Linked previous next none none [] :=
  ⟨List.nodup_nil, rfl, rfl, trivial, trivial⟩

theorem singleton (hp : previous x = none) (hn : next x = none) :
    Linked previous next (some x) (some x) [x] :=
  ⟨List.nodup_singleton x, rfl, rfl, ⟨hn, trivial⟩, ⟨hp, trivial⟩⟩

theorem congr (h : Linked previous next head tail xs) (hp : ∀ x ∈ xs, previous' x = previous x)
    (hn : ∀ x ∈ xs, next' x = next x) : Linked previous' next' head tail xs :=
  ⟨h.nodup, h.head, h.tail, h.forward.congr hn, h.backward.congr hp⟩

theorem eq_nil_iff (h : Linked previous next head tail xs) : xs = [] ↔ head = none := by
  rw [h.head, List.head?_eq_none_iff]

/-- The elements are determined by the links. -/
theorem unique {ys : List α} (h : Linked previous next head tail xs)
    (h' : Linked previous next head tail ys) : xs = ys := by
  have hxs := h.forward.visits
  have hys := h'.forward.visits
  rw [← h.head] at hxs
  rw [← h'.head] at hys
  exact hxs.unique hys

theorem next_eq (h : Linked previous next head tail (a ++ x :: b)) : next x = b.head? := by
  have := (ForwardLinked.append.mp h.forward).2.1
  simpa using this

theorem previous_eq (h : Linked previous next head tail (a ++ x :: b)) :
    previous x = a.getLast? := by
  have := (BackwardLinked.append.mp h.backward).2.1
  simpa using this

/-- A new element `x` after the last one, `z`. -/
theorem append (h : Linked previous next head tail (xs ++ [z])) (hx : x ∉ xs ++ [z])
    (hp : previous' x = some z) (hn : next' x = none) (hz : next' z = some x)
    (hps : ∀ y ∈ xs ++ [z], previous' y = previous y) (hns : ∀ y ∈ xs, next' y = next y) :
    Linked previous' next' head (some x) (xs ++ [z] ++ [x]) where
  nodup := List.Nodup.append h.nodup (List.nodup_singleton x) (by simpa using hx)
  head := by rw [h.head, List.head?_append (l := xs ++ [z])]; simp
  tail := by simp
  forward := ForwardLinked.snoc.mpr ⟨h.forward.retarget hz hns, hn⟩
  backward := by
    rw [BackwardLinked.append]
    exact ⟨h.backward.congr hps, by simpa using hp, trivial⟩

/-- The element `x` taken out: its neighbours are linked to each other. -/
theorem remove (h : Linked previous next head tail (a ++ x :: b))
    (hna : ∀ y ∈ a.dropLast, next' y = next y) (hnz : ∀ z ∈ a.getLast?, next' z = b.head?)
    (hnb : ∀ y ∈ b, next' y = next y) (hpa : ∀ y ∈ a, previous' y = previous y)
    (hpz : ∀ z ∈ b.head?, previous' z = a.getLast?)
    (hpb : ∀ y ∈ b.tail, previous' y = previous y) :
    Linked previous' next' (a ++ b).head? (a ++ b).getLast? (a ++ b) where
  nodup := h.nodup.sublist (List.Sublist.append_left (List.sublist_cons_self ..) a)
  head := rfl
  tail := rfl
  forward := by
    obtain ⟨hfa, hfb⟩ := ForwardLinked.append.mp h.forward
    refine ForwardLinked.append.mpr ⟨?_, hfb.2.congr hnb⟩
    rcases List.eq_nil_or_concat' a with rfl | ⟨a, z, rfl⟩
    · trivial
    · rw [List.dropLast_concat] at hna
      rw [Option.or_none]
      exact hfa.retarget (hnz z (by simp)) hna
  backward := by
    obtain ⟨hba, hbb⟩ := BackwardLinked.append.mp h.backward
    refine BackwardLinked.append.mpr ⟨hba.congr hpa, ?_⟩
    cases b with
    | nil => trivial
    | cons y b =>
      rw [Option.or_none]
      exact hbb.2.retarget (hpz y rfl) hpb

end Linked
