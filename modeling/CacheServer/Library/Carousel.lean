import Mathlib.Data.List.Nodup
import Mathlib.Data.List.Rotate

/-!
# Carousels

A queue that is gone round: `ahead` starts with the element whose turn it is and
`passed` are those before it. An element that waits is passed over, one that works
starts the round again at the front, one that completes goes to the back. Nobody
who has to work before each completion overtakes an element twice.
-/

inductive Turn (α : Type*) where
  | joins (x : α)
  | waits (x : α)
  | works (x : α)
  | completes (x : α)
  | leaves (x : α)
  deriving DecidableEq

namespace Turn

def who {α : Type*} : Turn α → α
  | joins x | waits x | works x | completes x | leaves x => x

/-- Before its first completion `x` works. -/
def Rested {α : Type*} (x : α) : List (Turn α) → Prop
  | [] => True
  | works y :: turns => y = x ∨ Rested x turns
  | completes y :: turns => y ≠ x ∧ Rested x turns
  | _ :: turns => Rested x turns

/-- Between any two completions `x` works. -/
def Diligent {α : Type*} (x : α) : List (Turn α) → Prop
  | [] => True
  | completes y :: turns => (y = x → Rested x turns) ∧ Diligent x turns
  | _ :: turns => Diligent x turns

section
variable {α : Type*} {x : α} {turns turns' : List (Turn α)}

theorem Rested.append (h : completes x ∉ turns) (hx : works x ∈ turns ∨ Rested x turns') :
    Rested x (turns ++ turns') := by
  induction turns with
  | nil => exact hx.resolve_left List.not_mem_nil
  | cons t turns ih =>
    have hrest : completes x ∉ turns := fun hmem => h (List.mem_cons_of_mem _ hmem)
    cases t with
    | works y =>
      by_cases hy : y = x
      · exact Or.inl hy
      · have hne : works x ≠ works y := fun he => hy (works.inj he).symm
        exact Or.inr (ih hrest (hx.imp_left fun hmem => (List.mem_cons.mp hmem).resolve_left hne))
    | completes y =>
      have hy : y ≠ x := by
        rintro rfl
        exact h List.mem_cons_self
      exact ⟨hy, ih hrest (hx.imp_left fun hmem => (List.mem_cons.mp hmem).resolve_left (by simp))⟩
    | joins y | waits y | leaves y =>
      exact ih hrest (hx.imp_left fun hmem => (List.mem_cons.mp hmem).resolve_left (by simp))

theorem Diligent.append (h : completes x ∉ turns) (hx : Diligent x turns') :
    Diligent x (turns ++ turns') := by
  induction turns with
  | nil => exact hx
  | cons t turns ih =>
    have hrest := ih fun hmem => h (List.mem_cons_of_mem _ hmem)
    cases t with
    | completes y =>
      refine ⟨fun hy => ?_, hrest⟩
      subst hy
      exact absurd List.mem_cons_self h
    | joins y | waits y | works y | leaves y => exact hrest

end

end Turn

structure Carousel (α : Type*) where
  passed : List α
  ahead : List α

namespace Carousel
variable {α : Type*}

def items (k : Carousel α) : List α := k.passed ++ k.ahead

/-- The order in which the elements come up while all of them wait. -/
def order (k : Carousel α) : List α := k.ahead ++ k.passed

/-- After the last element it is the first one's turn. -/
def around (passed : List α) : List α → Carousel α
  | [] => ⟨[], passed⟩
  | x :: ahead => ⟨passed, x :: ahead⟩

def push (k : Carousel α) (x : α) : Carousel α := ⟨k.passed, k.ahead ++ [x]⟩

inductive Step : Carousel α → Turn α → Carousel α → Prop
  | joins {k : Carousel α} {x : α} (new : x ∉ k.items) : Step k (.joins x) (k.push x)
  | waits {p a : List α} {x : α} : Step ⟨p, x :: a⟩ (.waits x) (around (p ++ [x]) a)
  | works {p a : List α} {x : α} : Step ⟨p, x :: a⟩ (.works x) ⟨[], p ++ x :: a⟩
  | completes {p a : List α} {x : α} : Step ⟨p, x :: a⟩ (.completes x) ((around p a).push x)
  | leaves {p a : List α} {x : α} : Step ⟨p, x :: a⟩ (.leaves x) (around p a)

inductive Run : Carousel α → List (Turn α) → Carousel α → Prop
  | nil {k : Carousel α} : Run k [] k
  | cons {k k₁ k' : Carousel α} {t : Turn α} {turns : List (Turn α)} (step : Step k t k₁)
      (rest : Run k₁ turns k') : Run k (t :: turns) k'

section
variable {k k₁ k' : Carousel α} {t : Turn α} {turns turns' : List (Turn α)} {c x : α}
  {p a : List α}

theorem Run.append (h : Run k turns k₁) (h' : Run k₁ turns' k') : Run k (turns ++ turns') k' := by
  induction h with
  | nil => exact h'
  | cons step rest ih => exact .cons step (ih h')

@[simp] theorem around_items (p a : List α) : (around p a).items = p ++ a := by
  cases a with
  | nil => simp [around, items]
  | cons x a => rfl

@[simp] theorem push_items (k : Carousel α) (x : α) : (k.push x).items = k.items ++ [x] := by
  simp [push, items]

theorem around_order (p a : List α) : (around p a).order = a ++ p := by
  cases a with
  | nil => simp [around, order]
  | cons x a => rfl

theorem mem_around (ha : c ∈ a) : c ∈ (around p a).ahead := by
  cases a with
  | nil => cases ha
  | cons x a => exact ha

/-! ### The elements -/

theorem Step.nodup (h : Step k t k') (hk : k.items.Nodup) : k'.items.Nodup := by
  cases h with
  | joins new =>
    rw [push_items]
    rw [← List.concat_eq_append]
    exact hk.concat new
  | @waits p a x =>
    have he : p ++ [x] ++ a = p ++ x :: a := by simp
    rw [around_items, he]
    exact hk
  | works => exact hk
  | @completes p a x =>
    have hx : x ∉ p ++ a := (List.nodup_cons.mp (List.nodup_middle.mp hk)).1
    have hpa : (p ++ a).Nodup := (List.nodup_cons.mp (List.nodup_middle.mp hk)).2
    rw [push_items, around_items, ← List.concat_eq_append]
    exact hpa.concat hx
  | @leaves p a x =>
    rw [around_items]
    exact (List.nodup_cons.mp (List.nodup_middle.mp hk)).2

theorem Step.mem (h : Step k t k') (hc : c ∈ k.items) (ht : t.who ≠ c) : c ∈ k'.items := by
  cases h with
  | joins new =>
    rw [push_items]
    exact List.mem_append_left _ hc
  | @waits p a x =>
    rw [around_items]
    simpa [items] using hc
  | works => exact hc
  | @completes p a x =>
    rw [push_items, around_items]
    have hcx : c ≠ x := Ne.symm ht
    simpa [items, hcx] using hc
  | @leaves p a x =>
    rw [around_items]
    have hcx : c ≠ x := Ne.symm ht
    simpa [items, hcx] using hc

/-! ### Overtaking -/

/-- As long as `x` takes part it stands behind `c`. -/
def Behind (c x : α) (k : Carousel α) : Prop := x ∈ k.items → [c, x].Sublist k.items

theorem sublist_concat (hc : c ∈ a) : [c, x].Sublist (a ++ [x]) :=
  (List.singleton_sublist.mpr hc).append (List.Sublist.refl [x])

theorem sublist_middle {y : α} (h : [c, x].Sublist (p ++ y :: a)) (hc : y ≠ c) (hx : y ≠ x) :
    [c, x].Sublist (p ++ a) := by
  classical
  have hsub := h.filter fun z => decide (z ≠ y)
  simp only [List.filter_append, List.filter_cons, ne_eq, not_true, decide_false, Bool.false_eq_true,
    if_false, Ne.symm hc, Ne.symm hx, not_false_eq_true, decide_true, if_true,
    List.filter_nil] at hsub
  exact hsub.trans (List.filter_sublist.append List.filter_sublist)

theorem Step.behind (h : Step k t k') (hc : c ∈ k.items) (ht : t.who ≠ c) (hb : Behind c x k)
    (hk : k.items.Nodup) : Behind c x k' := by
  intro hx
  cases h with
  | @joins _ y new =>
    rw [push_items] at hx ⊢
    by_cases hold : x ∈ k.items
    · exact (hb hold).trans (List.sublist_append_left _ _)
    · have hxy : x = y := by simpa [hold] using hx
      rw [hxy]
      exact sublist_concat hc
  | @waits p a y =>
    have he : p ++ [y] ++ a = p ++ y :: a := by simp
    rw [around_items, he] at hx ⊢
    exact hb hx
  | works => exact hb hx
  | @completes p a y =>
    rw [push_items, around_items] at hx ⊢
    have hcy : c ≠ y := Ne.symm ht
    have hmem : c ∈ p ++ a := by simpa [items, hcy] using hc
    by_cases hxy : x = y
    · rw [hxy]
      exact sublist_concat hmem
    · have hold : x ∈ p ++ y :: a := by
        simp only [List.mem_append, List.mem_cons, List.not_mem_nil, or_false] at hx ⊢
        tauto
      exact (sublist_middle (hb hold) ht (Ne.symm hxy)).trans (List.sublist_append_left _ _)
  | @leaves p a y =>
    rw [around_items] at hx ⊢
    have hy : y ∉ p ++ a := (List.nodup_cons.mp (List.nodup_middle.mp hk)).1
    have hyx : y ≠ x := fun he => hy (he ▸ hx)
    have hold : x ∈ p ++ y :: a := by
      simp only [List.mem_append, List.mem_cons] at hx ⊢
      tauto
    exact sublist_middle (hb hold) ht hyx

/-- Whoever completes is put behind all the others. -/
theorem Step.behind_completes (h : Step k (.completes x) k') (hc : c ∈ k.items) (hcx : x ≠ c) :
    Behind c x k' := by
  cases h with
  | @completes p a _ =>
    intro hx
    rw [push_items, around_items]
    have hmem : c ∈ p ++ a := by simpa [items, Ne.symm hcx] using hc
    exact sublist_concat hmem

/-- The turn stays before `c` or at it. -/
theorem Step.ahead (h : Step k t k') (hc : c ∈ k.ahead) (ht : t.who ≠ c) : c ∈ k'.ahead := by
  cases h with
  | joins new => exact List.mem_append_left _ hc
  | waits | leaves =>
    refine mem_around ?_
    exact (List.mem_cons.mp hc).resolve_left (Ne.symm ht)
  | works => exact List.mem_append_right _ hc
  | completes =>
    refine List.mem_append_left _ (mem_around ?_)
    exact (List.mem_cons.mp hc).resolve_left (Ne.symm ht)

/-- An element behind `c` does not come up while `c` is ahead. -/
theorem Step.not_completes (h : Step k t k') (hk : k.items.Nodup) (hc : c ∈ k.ahead)
    (hb : Behind c x k) (ht : t.who ≠ c) : t ≠ .completes x := by
  rintro rfl
  cases h with
  | @completes p a _ =>
    have hca : c ∈ a := (List.mem_cons.mp hc).resolve_left (Ne.symm ht)
    have hx : x ∈ p ++ x :: a := by simp
    have hcx : [c, x].Sublist (p ++ x :: a) := hb hx
    obtain ⟨l, r, he, hl, hr⟩ := List.sublist_append_iff.mp hcx
    obtain ⟨-, hxa, hdisjoint⟩ := List.nodup_append.mp hk
    cases l with
    | cons y l =>
      have hcp : c ∈ p := by
        rw [(List.cons.inj he).1]
        exact hl.subset List.mem_cons_self
      exact hdisjoint c hcp c (List.mem_cons_of_mem _ hca) rfl
    | nil =>
      rw [List.nil_append] at he
      subst he
      have hsub : [c, x].Sublist a := (List.sublist_cons_iff.mp hr).resolve_right fun hhead => by
        obtain ⟨r, he, -⟩ := hhead
        exact ht (List.cons.inj he).1.symm
      exact (List.nodup_cons.mp hxa).1 (hsub.subset (by simp))

/-! ### Runs -/

theorem Run.not_completes (h : Run k turns k') (hk : k.items.Nodup) (hc : c ∈ k.ahead)
    (hb : Behind c x k) (hturns : ∀ t ∈ turns, t.who ≠ c) : .completes x ∉ turns := by
  induction h with
  | nil => exact List.not_mem_nil
  | @cons k k₁ k' t turns step rest ih =>
    have ht : t.who ≠ c := hturns t List.mem_cons_self
    have hitems : c ∈ k.items := List.mem_append_right _ hc
    have hrest := ih (step.nodup hk) (step.ahead hc ht) (step.behind hitems ht hb hk)
      fun u hu => hturns u (List.mem_cons_of_mem _ hu)
    intro hmem
    rcases List.mem_cons.mp hmem with he | hmem
    · exact step.not_completes hk hc hb ht he.symm
    · exact hrest hmem

theorem Run.not_completes_rested (h : Run k turns k') (hk : k.items.Nodup) (hc : c ∈ k.items)
    (hb : Behind c x k) (hturns : ∀ t ∈ turns, t.who ≠ c) (hx : Turn.Rested x turns) :
    .completes x ∉ turns := by
  induction h with
  | nil => exact List.not_mem_nil
  | @cons k k₁ k' t turns step rest ih =>
    have ht : t.who ≠ c := hturns t List.mem_cons_self
    have htail : ∀ u ∈ turns, u.who ≠ c := fun u hu => hturns u (List.mem_cons_of_mem _ hu)
    have hb₁ : Behind c x k₁ := step.behind hc ht hb hk
    have hrest := ih (step.nodup hk) (step.mem hc ht) hb₁ htail
    cases t with
    | works y =>
      have hc₁ : c ∈ k₁.ahead := by
        cases step
        exact hc
      have hnone := rest.not_completes (step.nodup hk) hc₁ hb₁ htail
      simpa using hnone
    | completes y =>
      obtain ⟨hyx, hx⟩ := hx
      intro hmem
      rcases List.mem_cons.mp hmem with he | hmem
      · exact hyx (Turn.completes.inj he).symm
      · exact hrest hx hmem
    | joins y | waits y | leaves y => simpa using hrest hx

/-- While `c` waits for its turn, nobody else completes twice. -/
theorem Run.count_completes_le [DecidableEq α] (h : Run k turns k') (hk : k.items.Nodup)
    (hc : c ∈ k.items) (hturns : ∀ t ∈ turns, t.who ≠ c) (hx : Turn.Diligent x turns) :
    turns.count (.completes x) ≤ 1 := by
  induction h with
  | nil => exact Nat.zero_le 1
  | @cons k k₁ k' t turns step rest ih =>
    have ht : t.who ≠ c := hturns t List.mem_cons_self
    have htail : ∀ u ∈ turns, u.who ≠ c := fun u hu => hturns u (List.mem_cons_of_mem _ hu)
    have hrest := ih (step.nodup hk) (step.mem hc ht) htail
    cases t with
    | completes y =>
      obtain ⟨hrested, hx⟩ := hx
      by_cases hyx : y = x
      · subst hyx
        have hb : Behind c y k₁ := step.behind_completes hc ht
        have hnone := rest.not_completes_rested (step.nodup hk) (step.mem hc ht) hb htail
          (hrested rfl)
        rw [List.count_cons_self, List.count_eq_zero.mpr hnone]
      · have hne : Turn.completes y ≠ .completes x := fun he => hyx (Turn.completes.inj he)
        rw [List.count_cons_of_ne hne]
        exact hrest hx
    | joins y | waits y | works y | leaves y =>
      rw [List.count_cons_of_ne (by simp)]
      exact hrest hx

/-! ### Waiting -/

/-- While all wait, they come up one after the other, round and round. -/
theorem Run.waits (h : Run k turns k') (hturns : ∀ t ∈ turns, ∃ x, t = .waits x) :
    k'.items = k.items ∧ k'.order = k.order.rotate turns.length ∧
      ∀ j < turns.length, turns[j]? = (k.order.rotate j).head?.map .waits := by
  induction h with
  | nil => exact ⟨rfl, by simp, fun j hj => absurd hj (Nat.not_lt_zero j)⟩
  | @cons k k₁ k' t turns step rest ih =>
    obtain ⟨hitems, horder, hget⟩ := ih fun u hu => hturns u (List.mem_cons_of_mem _ hu)
    obtain ⟨x, rfl⟩ := hturns t List.mem_cons_self
    cases step with
    | @waits p a _ =>
      have hnext : (around (p ++ [x]) a).order = (⟨p, x :: a⟩ : Carousel α).order.rotate 1 := by
        rw [around_order]
        simp [order]
      rw [hnext] at horder hget
      refine ⟨?_, ?_, fun j hj => ?_⟩
      · rw [hitems, around_items]
        simp [items]
      · rw [horder, List.rotate_rotate, List.length_cons, Nat.add_comm]
      · cases j with
        | zero => simp [order]
        | succ j =>
          rw [List.getElem?_cons_succ, hget j (Nat.lt_of_succ_lt_succ hj), List.rotate_rotate,
            Nat.add_comm]

/-- In as many turns as there are elements each waits once. -/
theorem Run.waits_round (h : Run k turns k') (hturns : ∀ t ∈ turns, ∃ x, t = .waits x)
    (hlength : turns.length = k.items.length) : turns = k.order.map .waits ∧ k'.order = k.order := by
  obtain ⟨-, horder, hget⟩ := h.waits hturns
  have hlen : turns.length = k.order.length := by
    rw [hlength, items, order, List.length_append, List.length_append, Nat.add_comm]
  constructor
  · refine List.ext_getElem? fun j => ?_
    by_cases hj : j < turns.length
    · rw [hget j hj, List.head?_rotate (hlen ▸ hj), List.getElem?_map]
    · rw [List.getElem?_eq_none (by omega), List.getElem?_eq_none (by rw [List.length_map]; omega)]
  · rw [horder, hlen, List.rotate_length]

end

end Carousel
