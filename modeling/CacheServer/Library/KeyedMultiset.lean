import Mathlib.Data.Multiset.AddSub
import Mathlib.Data.Multiset.Bind
import Mathlib.Data.Multiset.UnionInter
import Mathlib.Data.Set.Card

/-!
# Multisets with distinct keys

A multiset whose elements have distinct keys holds a map from keys to elements.
The lemmas say which map it holds after an element was added, taken out or
exchanged for one with the same key.
-/

variable {α κ : Type*}

structure Represents (key : α → κ) (T : Multiset α) (M : κ → Option α) : Prop where
  distinct : (T.map key).Nodup
  get : ∀ k a, M k = some a ↔ a ∈ T ∧ key a = k

namespace Represents

variable {key key' : α → κ} {S T : Multiset α} {M : κ → Option α} {a b : α} {k : κ}

theorem zero (key : α → κ) : Represents key 0 fun _ => none where
  distinct := Multiset.nodup_zero
  get k a := by simp

theorem eq_none (h : Represents key T M) (hk : ∀ a ∈ T, key a ≠ k) : M k = none := by
  cases hM : M k with
  | none => rfl
  | some a =>
    obtain ⟨ha, hak⟩ := (h.get k a).mp hM
    exact absurd hak (hk a ha)

theorem eq_some (h : Represents key T M) (ha : a ∈ T) : M (key a) = some a :=
  (h.get _ a).mpr ⟨ha, rfl⟩

theorem eq_of_mem (h : Represents key T M) (ha : a ∈ T) (hb : b ∈ T) (hk : key a = key b) :
    a = b := by
  have hsome := h.eq_some ha
  rw [hk, h.eq_some hb] at hsome
  exact (Option.some.inj hsome).symm

/-- A map is held by one multiset. -/
theorem unique (h : Represents key T M) (h' : Represents key S M) : T = S := by
  refine (Multiset.Nodup.ext (Multiset.Nodup.of_map key h.distinct)
    (Multiset.Nodup.of_map key h'.distinct)).mpr fun a => ?_
  constructor
  · intro ha
    exact ((h'.get _ a).mp (h.eq_some ha)).1
  · intro ha
    exact ((h.get _ a).mp (h'.eq_some ha)).1

theorem congr (h : Represents key T M) (hk : ∀ a ∈ T, key' a = key a) : Represents key' T M where
  distinct := by
    rw [Multiset.map_congr rfl hk]
    exact h.distinct
  get k a := by
    rw [h.get k a]
    constructor
    · rintro ⟨ha, rfl⟩
      exact ⟨ha, hk a ha⟩
    · rintro ⟨ha, rfl⟩
      exact ⟨ha, (hk a ha).symm⟩

/-- Two elements of the multiset, counted as often as they occur, differ in the key. -/
theorem key_ne (h : Represents key T M) (hab : {a, b} ≤ T) : key a ≠ key b := by
  have hnodup := Multiset.nodup_of_le (Multiset.map_le_map hab) h.distinct
  rw [Multiset.insert_eq_cons, Multiset.map_cons, Multiset.map_singleton,
    Multiset.nodup_cons] at hnodup
  intro he
  exact hnodup.1 (Multiset.mem_singleton.mpr he)

section
variable [DecidableEq κ]

theorem add (h : Represents key T M) (hk : M (key a) = none) :
    Represents key (T + {a}) (Function.update M (key a) (some a)) where
  distinct := by
    rw [Multiset.map_add, Multiset.map_singleton, Multiset.nodup_add]
    refine ⟨h.distinct, Multiset.nodup_singleton _, ?_⟩
    rw [Multiset.disjoint_singleton]
    intro hmem
    obtain ⟨b, hb, hba⟩ := Multiset.mem_map.mp hmem
    have hsome := h.eq_some hb
    rw [hba, hk] at hsome
    cases hsome
  get k b := by
    rw [Multiset.mem_add, Multiset.mem_singleton]
    by_cases hka : k = key a
    · subst hka
      rw [Function.update_self]
      constructor
      · intro he
        cases he
        exact ⟨Or.inr rfl, rfl⟩
      · rintro ⟨hb | rfl, hba⟩
        · have hsome := h.eq_some hb
          rw [hba, hk] at hsome
          cases hsome
        · rfl
    · rw [Function.update_of_ne hka, h.get k b]
      constructor
      · exact fun hb => ⟨Or.inl hb.1, hb.2⟩
      · rintro ⟨hb | rfl, hbk⟩
        · exact ⟨hb, hbk⟩
        · exact absurd hbk.symm hka

theorem takeOut (h : Represents key T M) (hT : S + {a} = T) :
    Represents key S (Function.update M (key a) none) where
  distinct := by
    refine Multiset.nodup_of_le (Multiset.map_le_map ?_) h.distinct
    rw [← hT]
    exact Multiset.le_add_right S {a}
  get k b := by
    have hne : ∀ b ∈ S, key b ≠ key a := by
      intro b hb
      refine h.key_ne ?_
      rw [← hT, Multiset.insert_eq_cons, ← Multiset.singleton_add]
      exact Multiset.add_le_add_right (Multiset.singleton_le.mpr hb)
    by_cases hka : k = key a
    · subst hka
      rw [Function.update_self]
      constructor
      · intro he
        cases he
      · exact fun hb => absurd hb.2 (hne b hb.1)
    · rw [Function.update_of_ne hka, h.get k b, ← hT, Multiset.mem_add, Multiset.mem_singleton]
      constructor
      · rintro ⟨hb | rfl, hbk⟩
        · exact ⟨hb, hbk⟩
        · exact absurd hbk.symm hka
      · exact fun hb => ⟨Or.inl hb.1, hb.2⟩

theorem exchange (h : Represents key T M) (hb : b ∈ T) (hk : key a = key b)
    (hS : S + {b} = T + {a}) : Represents key S (Function.update M (key a) (some a)) := by
  obtain ⟨R, rfl⟩ := Multiset.exists_cons_of_mem hb
  have hR : R + {b} = b ::ₘ R := by rw [add_comm, Multiset.singleton_add]
  have hout := h.takeOut hR
  rw [← hk] at hout
  have hin := hout.add (a := a) (Function.update_self ..)
  rw [Function.update_idem] at hin
  have he : S = R + {a} := by
    rw [← hR, add_right_comm] at hS
    exact add_right_cancel hS
  rw [he]
  exact hin

end

/-- There are as many elements as keys in the map. -/
theorem ncard_eq (h : Represents key T M) : {k | M k ≠ none}.ncard = T.card := by
  classical
  have hset : {k | M k ≠ none} = ((T.map key).toFinset : Set κ) := by
    ext k
    rw [Finset.mem_coe, Multiset.mem_toFinset, Multiset.mem_map]
    change M k ≠ none ↔ _
    rw [Option.ne_none_iff_exists']
    constructor
    · rintro ⟨a, ha⟩
      exact ⟨a, (h.get k a).mp ha⟩
    · rintro ⟨a, ha⟩
      exact ⟨a, (h.get k a).mpr ha⟩
  rw [hset, Set.ncard_coe_finset, Multiset.toFinset_card_of_nodup h.distinct, Multiset.card_map]

end Represents
