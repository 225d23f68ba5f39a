import Mathlib.Data.List.Basic
import Mathlib.Data.List.Nodup

/-!
# Lists with distinct keys

A list whose elements have pairwise distinct keys acts as a finite map: a search
for a key finds the one element that has it, and erasing by key is filtering.
Searches are by any test that agrees with the key on the elements of the list.
-/

variable {α β : Type*}

def DistinctKeys (key : α → β) (xs : List α) : Prop := (xs.map key).Nodup

namespace DistinctKeys

variable {key key' : α → β} {xs : List α} {x y : α} {p : α → Bool} {k : β}

theorem eq_of_mem (h : DistinctKeys key xs) (hx : x ∈ xs) (hy : y ∈ xs) (hk : key x = key y) :
    x = y :=
  List.inj_on_of_nodup_map h hx hy hk

theorem sublist {ys : List α} (h : DistinctKeys key xs) (hs : ys.Sublist xs) : DistinctKeys key ys :=
  List.Nodup.sublist (hs.map key) h

theorem congr (h : DistinctKeys key xs) (hk : ∀ x ∈ xs, key' x = key x) : DistinctKeys key' xs := by
  rw [DistinctKeys, List.map_congr_left hk]
  exact h

theorem cons (h : DistinctKeys key xs) (hx : ∀ y ∈ xs, key y ≠ key x) :
    DistinctKeys key (x :: xs) := by
  rw [DistinctKeys, List.map_cons, List.nodup_cons]
  refine ⟨fun hmem => ?_, h⟩
  obtain ⟨y, hy, hk⟩ := List.mem_map.mp hmem
  exact hx y hy hk

theorem find? (h : DistinctKeys key xs) (hp : ∀ y ∈ xs, p y = true ↔ key y = k) (hx : x ∈ xs)
    (hk : key x = k) : xs.find? p = some x := by
  cases hf : xs.find? p with
  | none => exact absurd ((hp x hx).mpr hk) (List.find?_eq_none.mp hf x hx)
  | some y =>
    have hy := List.mem_of_find?_eq_some hf
    have hky : key y = k := (hp y hy).mp (List.find?_some hf)
    exact congrArg some (h.eq_of_mem hy hx (hky.trans hk.symm))

theorem mem_eraseP (h : DistinctKeys key xs) (hp : ∀ y ∈ xs, p y = true ↔ key y = k) :
    x ∈ xs.eraseP p ↔ x ∈ xs ∧ key x ≠ k := by
  induction xs with
  | nil => simp
  | cons y ys ih =>
    obtain ⟨hy, hys⟩ := List.nodup_cons.mp h
    have ih := ih hys fun z hz => hp z (List.mem_cons_of_mem _ hz)
    have hpy := hp y (List.mem_cons_self ..)
    by_cases hk : key y = k
    · have hne : ∀ z ∈ ys, key z ≠ k := fun z hz he =>
        hy (hk ▸ he ▸ List.mem_map_of_mem hz)
      rw [List.eraseP_cons_of_pos (hpy.mpr hk), List.mem_cons]
      constructor
      · exact fun hx => ⟨Or.inr hx, hne x hx⟩
      · rintro ⟨rfl | hx, hxk⟩
        · exact absurd hk hxk
        · exact hx
    · rw [List.eraseP_cons_of_neg (fun ht => hk (hpy.mp ht)), List.mem_cons, List.mem_cons, ih]
      constructor
      · rintro (rfl | hx)
        · exact ⟨Or.inl rfl, hk⟩
        · exact ⟨Or.inr hx.1, hx.2⟩
      · rintro ⟨rfl | hx, hxk⟩
        · exact Or.inl rfl
        · exact Or.inr ⟨hx, hxk⟩

end DistinctKeys
