import CacheServer.Model.EntryHashMap
import Mathlib.Data.Set.Basic

/-!
# What entry_compare takes for the same key

`entry_compare` is 0 for equal keys, but also for a key and any longer one, and
for two keys of one length that agree up to a NUL byte.
-/

namespace CacheServer

/-- Different keys with `entry_compare` 0. -/
def Confused (k1 k2 : List UInt8) : Prop :=
  k1.length < k2.length ∨
    k1.length = k2.length ∧ ∃ u v1 v2, v1 ≠ v2 ∧ k1 = u ++ 0 :: v1 ∧ k2 = u ++ 0 :: v2

theorem strncmp_self (k : List UInt8) : strncmp k k = 0 := by
  induction k with
  | nil => rfl
  | cons b bs ih => simp [strncmp, ih]

theorem keyCompare_self (k : List UInt8) : keyCompare k k = 0 := by
  rw [keyCompare, if_neg (by simp), strncmp_self]

theorem strncmp_cons_ne {a b : UInt8} (as bs : List UInt8) (h : a ≠ b) :
    strncmp (a :: as) (b :: bs) ≠ 0 := by
  have hne : a.toNat ≠ b.toNat := fun he => h (UInt8.toNat_inj.mp he)
  rw [strncmp, if_pos h]
  omega

theorem strncmp_eq_zero_iff {k1 k2 : List UInt8} (h : k1.length = k2.length) :
    strncmp k1 k2 = 0 ↔ k1 = k2 ∨ ∃ u v1 v2, k1 = u ++ 0 :: v1 ∧ k2 = u ++ 0 :: v2 := by
  induction k1 generalizing k2 with
  | nil =>
    have hk2 : k2 = [] := List.length_eq_zero_iff.mp h.symm
    simp [hk2, strncmp]
  | cons a as ih =>
    cases k2 with
    | nil => cases h
    | cons b bs =>
      by_cases hab : a = b
      · subst hab
        by_cases ha : a = 0
        · subst ha
          have hzero : strncmp (0 :: as) (0 :: bs) = 0 := by simp [strncmp]
          exact ⟨fun _ => Or.inr ⟨[], as, bs, rfl, rfl⟩, fun _ => hzero⟩
        · have hstep : strncmp (a :: as) (a :: bs) = strncmp as bs := by simp [strncmp, ha]
          rw [hstep, ih (Nat.succ.inj h)]
          constructor
          · rintro (rfl | ⟨u, v1, v2, rfl, rfl⟩)
            · exact Or.inl rfl
            · exact Or.inr ⟨a :: u, v1, v2, rfl, rfl⟩
          · rintro (he | ⟨u, v1, v2, h1, h2⟩)
            · exact Or.inl (List.cons.inj he).2
            · cases u with
              | nil => exact absurd (List.cons.inj h1).1 ha
              | cons x u => exact Or.inr ⟨u, v1, v2, (List.cons.inj h1).2, (List.cons.inj h2).2⟩
      · have hne := strncmp_cons_ne as bs hab
        refine ⟨fun hzero => absurd hzero hne, ?_⟩
        rintro (he | ⟨u, v1, v2, h1, h2⟩)
        · exact absurd (List.cons.inj he).1 hab
        · cases u with
          | nil => exact absurd ((List.cons.inj h1).1.trans (List.cons.inj h2).1.symm) hab
          | cons x u => exact absurd ((List.cons.inj h1).1.trans (List.cons.inj h2).1.symm) hab

theorem keyCompare_eq_zero_iff {k1 k2 : List UInt8} (hne : k1 ≠ k2) :
    keyCompare k1 k2 = 0 ↔ Confused k1 k2 := by
  unfold keyCompare Confused
  by_cases hlen : k1.length = k2.length
  · rw [if_neg (by simp [hlen]), strncmp_eq_zero_iff hlen]
    constructor
    · rintro (he | ⟨u, v1, v2, rfl, rfl⟩)
      · exact absurd he hne
      · refine Or.inr ⟨hlen, u, v1, v2, ?_, rfl, rfl⟩
        rintro rfl
        exact hne rfl
    · rintro (hlt | ⟨-, u, v1, v2, -, h1, h2⟩)
      · omega
      · exact Or.inr ⟨u, v1, v2, h1, h2⟩
  · rw [if_pos hlen]
    by_cases hgt : k1.length > k2.length
    · rw [if_pos hgt]
      constructor
      · intro hone
        cases hone
      · rintro (hlt | ⟨he, -⟩)
        · omega
        · exact absurd he hlen
    · rw [if_neg hgt]
      exact ⟨fun _ => Or.inl (by omega), fun _ => rfl⟩

/-- No two keys of the set are taken for each other. -/
def Separates (hash : List UInt8 → Nat) (keys : Set (List UInt8)) : Prop :=
  ∀ k1 ∈ keys, ∀ k2 ∈ keys, k1.length < 2 ^ 16 → k2.length < 2 ^ 16 → Confused k1 k2 →
    hash k1 ≠ hash k2

end CacheServer
