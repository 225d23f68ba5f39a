import Mathlib.Algebra.BigOperators.Group.Finset.Basic
import Mathlib.Data.Finset.Card
import Mathlib.Data.Nat.ModEq
import Mathlib.Logic.Function.Basic
import Mathlib.Tactic.Ring

/-!
# Functions on a cycle

The positions are the numbers below `n`, and the one after `i` is `(i + 1) % n`.
`Climbs n f` says that `f` grows by one at most from each position to the next,
so that it takes `k` steps to climb to `k`. What lies on the cycle as a whole is
the sum of a multiset for each position.
-/

def Climbs (n : Nat) (f : Nat → Nat) : Prop := ∀ i < n, f ((i + 1) % n) ≤ f i + 1

section
variable {n i j k v : Nat} {f g : Nat → Nat}

/-! ### Distances -/

theorem exists_ahead (hi : i < n) (hj : j < n) : ∃ k < n, (i + k) % n = j := by
  refine ⟨(j + (n - i)) % n, Nat.mod_lt _ (by omega), ?_⟩
  rw [Nat.add_mod_mod]
  have he : i + (j + (n - i)) = j + n := by omega
  rw [he, Nat.add_mod_right, Nat.mod_eq_of_lt hj]

theorem ahead_succ (i k n : Nat) : ((i + 1) % n + k) % n = (i + (k + 1)) % n := by
  rw [Nat.mod_add_mod]
  congr 1
  omega

theorem ahead_inj (hj : j < n) (hk : k < n) (h : (i + j) % n = (i + k) % n) : j = k := by
  have hmod : Nat.ModEq n j k := Nat.ModEq.add_left_cancel' i h
  exact Nat.ModEq.eq_of_lt_of_lt hmod hj hk

theorem pred_unique (hi : i < n) (hj : j < n) (h : (i + 1) % n = (j + 1) % n) : i = j := by
  have hmod : Nat.ModEq n i j := Nat.ModEq.add_right_cancel' 1 h
  exact Nat.ModEq.eq_of_lt_of_lt hmod hi hj

theorem next_ne (hn : 1 < n) (hi : i < n) : (i + 1) % n ≠ i := by
  intro h
  have h0 : (i + 1) % n = (i + 0) % n := by rw [h, Nat.add_zero, Nat.mod_eq_of_lt hi]
  have hzero := ahead_inj hn (by omega) h0
  omega

/-! ### Climbing functions -/

namespace Climbs

theorem le_add (h : Climbs n f) (hi : i < n) (k : Nat) : f ((i + k) % n) ≤ f i + k := by
  induction k with
  | zero => rw [Nat.add_zero, Nat.mod_eq_of_lt hi, Nat.add_zero]
  | succ k ih =>
    have hlt : (i + k) % n < n := Nat.mod_lt _ (by omega)
    have hstep := h _ hlt
    rw [Nat.mod_add_mod] at hstep
    rw [← Nat.add_assoc]
    omega

/-- On the way up to `f j` the function is at least what remains to be climbed. -/
theorem le_of_ahead (h : Climbs n f) (hi : i < n) (hj : (i + k) % n = j) : f j - k ≤ f i := by
  have hle := h.le_add hi k
  rw [hj] at hle
  omega

/-- The function cannot climb higher than there are positions that it does not vanish at. -/
theorem le_card (h : Climbs n f) (hi : i < n) (hj : j < n) (h0 : f j = 0) :
    f i ≤ ((Finset.range n).filter fun k => 0 < f k).card := by
  have hlt : f i < n := by
    obtain ⟨k, hk, he⟩ := exists_ahead hj hi
    have hle := h.le_add hj k
    rw [he] at hle
    omega
  have hback : ∀ t < f i, (i + (n - t)) % n < n ∧ ((i + (n - t)) % n + t) % n = i := by
    intro t ht
    refine ⟨Nat.mod_lt _ (by omega), ?_⟩
    rw [Nat.mod_add_mod]
    have he : i + (n - t) + t = i + n := by omega
    rw [he, Nat.add_mod_right, Nat.mod_eq_of_lt hi]
  rw [← Finset.card_range (f i)]
  refine Finset.card_le_card_of_injOn (fun t => (i + (n - t)) % n) ?_ ?_
  · intro t ht
    have ht : t < f i := Finset.mem_range.mp ht
    obtain ⟨hlt, he⟩ := hback t ht
    have hle := h.le_of_ahead hlt he
    have hpos : 0 < f ((i + (n - t)) % n) := by omega
    exact Finset.mem_coe.mpr (Finset.mem_filter.mpr ⟨Finset.mem_range.mpr hlt, hpos⟩)
  · intro s hs t ht he
    have hs : s < f i := Finset.mem_range.mp hs
    have ht : t < f i := Finset.mem_range.mp ht
    have hs' := (hback s hs).2
    have ht' := (hback t ht).2
    have he : (i + (n - s)) % n = (i + (n - t)) % n := he
    rw [he] at hs'
    exact ahead_inj (by omega) (by omega) (hs'.trans ht'.symm)

theorem congr (h : Climbs n f) (he : ∀ i < n, g i = f i) : Climbs n g := by
  intro i hi
  rw [he i hi, he _ (Nat.mod_lt _ (by omega))]
  exact h i hi

/-- A new value at one position has to fit the positions before and after it. -/
theorem update (h : Climbs n f) (hpred : ∀ j < n, (j + 1) % n = i → v ≤ f j + 1)
    (hsucc : f ((i + 1) % n) ≤ v + 1) : Climbs n (Function.update f i v) := by
  intro j hj
  by_cases hji : j = i
  · subst hji
    rw [Function.update_self]
    by_cases hs : (j + 1) % n = j
    · rw [hs, Function.update_self]
      omega
    · rw [Function.update_of_ne hs]
      exact hsucc
  · rw [Function.update_of_ne hji]
    by_cases hs : (j + 1) % n = i
    · rw [hs, Function.update_self]
      exact hpred j hj hs
    · rw [Function.update_of_ne hs]
      exact h j hj

theorem raise (h : Climbs n f) (hi : i < n) (hpred : ∀ j < n, (j + 1) % n = i → v ≤ f j + 1)
    (hle : f i ≤ v) : Climbs n (Function.update f i v) := by
  refine h.update hpred ?_
  have := h i hi
  omega

theorem lower (h : Climbs n f) (hsucc : f ((i + 1) % n) ≤ v + 1) (hle : v ≤ f i) :
    Climbs n (Function.update f i v) := by
  refine h.update (fun j hj he => ?_) hsucc
  have hj := h j hj
  rw [he] at hj
  omega

end Climbs

end

/-! ### What lies on the cycle -/

section
variable {α β : Type*} {n i : Nat} {cell : α → Multiset β} {f : Nat → α}

def gathered (cell : α → Multiset β) (n : Nat) (f : Nat → α) : Multiset β :=
  ∑ i ∈ Finset.range n, cell (f i)

/-- What lies at the positions other than `i`. -/
def gatheredBut (cell : α → Multiset β) (i n : Nat) (f : Nat → α) : Multiset β :=
  ∑ j ∈ (Finset.range n).erase i, cell (f j)

theorem gathered_eq (cell : α → Multiset β) (f : Nat → α) (hi : i < n) :
    gathered cell n f = gatheredBut cell i n f + cell (f i) := by
  unfold gathered gatheredBut
  rw [← Finset.add_sum_erase _ _ (Finset.mem_range.mpr hi), add_comm]

theorem gatheredBut_update (a : α) :
    gatheredBut cell i n (Function.update f i a) = gatheredBut cell i n f := by
  refine Finset.sum_congr rfl fun j hj => ?_
  rw [Function.update_of_ne (Finset.ne_of_mem_erase hj)]

theorem gathered_update (cell : α → Multiset β) (f : Nat → α) (hi : i < n) (a : α) :
    gathered cell n (Function.update f i a) + cell (f i) = gathered cell n f + cell a := by
  rw [gathered_eq cell _ hi, gathered_eq cell f hi, gatheredBut_update, Function.update_self, add_right_comm]

theorem cell_le_gathered (cell : α → Multiset β) (f : Nat → α) (hi : i < n) :
    cell (f i) ≤ gathered cell n f := by
  rw [gathered_eq cell f hi]
  exact Multiset.le_add_left _ _

theorem mem_gathered {x : β} : x ∈ gathered cell n f ↔ ∃ i < n, x ∈ cell (f i) := by
  simp [gathered, Multiset.mem_sum]

end
