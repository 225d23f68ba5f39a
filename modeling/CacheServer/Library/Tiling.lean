import Mathlib.Data.List.Pairwise
import Mathlib.Data.List.Basic
import Mathlib.Tactic.Ring
import Mathlib.Tactic.Push

/-!
# Tilings of an interval

`Tiled start stop p xs q` says that the intervals `[start x, stop x)` of the list
`xs` are non-empty and follow each other without a gap from `p` to `q`.
-/

variable {α : Type*}

def Tiled (start stop : α → Nat) : Nat → List α → Nat → Prop
  | p, [], q => p = q
  | p, x :: xs, q => start x = p ∧ start x < stop x ∧ Tiled start stop (stop x) xs q

namespace Tiled

variable {start stop : α → Nat} {p q r : Nat} {x : α} {xs ys : List α}

theorem le (h : Tiled start stop p xs q) : p ≤ q := by
  induction xs generalizing p with
  | nil => exact Nat.le_of_eq h
  | cons x xs ih =>
    obtain ⟨hs, hlt, ht⟩ := h
    have := ih ht
    omega

theorem lt_of_ne_nil (h : Tiled start stop p xs q) (hne : xs ≠ []) : p < q := by
  cases xs with
  | nil => exact absurd rfl hne
  | cons x xs =>
    obtain ⟨hs, hlt, ht⟩ := h
    have := ht.le
    omega

theorem eq_nil_of_eq (h : Tiled start stop p xs q) (hpq : p = q) : xs = [] := by
  by_contra hne
  have := h.lt_of_ne_nil hne
  omega

theorem mem_bounds (h : Tiled start stop p xs q) (hx : x ∈ xs) :
    p ≤ start x ∧ start x < stop x ∧ stop x ≤ q := by
  induction xs generalizing p with
  | nil => cases hx
  | cons y ys ih =>
    obtain ⟨hs, hlt, ht⟩ := h
    have hle := ht.le
    rcases List.mem_cons.mp hx with rfl | hmem
    · omega
    · have := ih ht hmem
      omega

theorem append (h : Tiled start stop p xs q) (h' : Tiled start stop q ys r) :
    Tiled start stop p (xs ++ ys) r := by
  induction xs generalizing p with
  | nil =>
    have hpq : p = q := h
    subst hpq
    exact h'
  | cons x xs ih => exact ⟨h.1, h.2.1, ih h.2.2⟩

theorem pairwise (h : Tiled start stop p xs q) : xs.Pairwise fun x y => stop x ≤ start y := by
  induction xs generalizing p with
  | nil => exact List.Pairwise.nil
  | cons x xs ih =>
    refine List.Pairwise.cons (fun y hy => ?_) (ih h.2.2)
    exact (h.2.2.mem_bounds hy).1

theorem apart {y : α} (h : Tiled start stop p xs q) (hx : x ∈ xs) (hy : y ∈ xs) :
    x = y ∨ stop x ≤ start y ∨ stop y ≤ start x := by
  induction xs generalizing p with
  | nil => cases hx
  | cons z zs ih =>
    rcases List.mem_cons.mp hx with rfl | hx'
    · rcases List.mem_cons.mp hy with rfl | hy'
      · exact Or.inl rfl
      · exact Or.inr (Or.inl (h.2.2.mem_bounds hy').1)
    · rcases List.mem_cons.mp hy with rfl | hy'
      · exact Or.inr (Or.inr (h.2.2.mem_bounds hx').1)
      · exact ih h.2.2 hx' hy'

/-- Only the last interval ends at `q`; every other one ends where another begins. -/
theorem exists_next (h : Tiled start stop p xs q) (hx : x ∈ xs) (hq : stop x ≠ q) :
    ∃ y ∈ xs, start y = stop x := by
  induction xs generalizing p with
  | nil => cases hx
  | cons y ys ih =>
    rcases List.mem_cons.mp hx with rfl | hmem
    · cases ys with
      | nil => exact absurd h.2.2 hq
      | cons z zs => exact ⟨z, by simp, h.2.2.1⟩
    · obtain ⟨z, hz, he⟩ := ih h.2.2 hmem
      exact ⟨z, List.mem_cons_of_mem _ hz, he⟩

theorem getLast_stop (h : Tiled start stop p xs q) (hne : xs ≠ []) :
    xs.getLast?.map stop = some q := by
  induction xs generalizing p with
  | nil => exact absurd rfl hne
  | cons x xs ih =>
    cases xs with
    | nil => exact congrArg some h.2.2
    | cons y ys =>
      rw [List.getLast?_cons_cons]
      exact ih h.2.2 (by simp)

theorem sum_lengths (h : Tiled start stop p xs q) :
    p + (xs.map fun x => stop x - start x).sum = q := by
  induction xs generalizing p with
  | nil =>
    have hpq : p = q := h
    simp [hpq]
  | cons x xs ih =>
    obtain ⟨hs, hlt, ht⟩ := h
    have hrest := ih ht
    simp only [List.map_cons, List.sum_cons]
    omega

end Tiled
