import Mathlib.Tactic.Basic

/-!
# Computations with a number of rounds

A loop without a bound is a function of the number of rounds it may take. It
returns a value if it does so for some number; a steady one then returns the
same value for every larger number, so that it returns one value at most and
returns compose over `bind`.
-/

variable {ε α β : Type}

theorem Except.bind_eq_ok_iff {x : Except ε α} {f : α → Except ε β} {b : β} :
    x >>= f = .ok b ↔ ∃ a, x = .ok a ∧ f a = .ok b := by
  cases x with
  | error e =>
    constructor
    · intro h
      cases h
    · rintro ⟨a, h, -⟩
      cases h
  | ok a =>
    constructor
    · exact fun h => ⟨a, rfl, h⟩
    · rintro ⟨a', h, hf⟩
      cases h
      exact hf

/-- The computation ends with a value that `P` holds of. -/
def Except.Gives (x : Except ε α) (P : α → Prop) : Prop := ∃ a, x = .ok a ∧ P a

instance (x : Except ε α) (P : α → Prop) [DecidablePred P] : Decidable (x.Gives P) :=
  match x with
  | .error _ => isFalse fun ⟨_, h, _⟩ => nomatch h
  | .ok a => decidable_of_iff (P a)
      ⟨fun hp => ⟨a, rfl, hp⟩, fun ⟨_, h, hp⟩ => Except.ok.inj h ▸ hp⟩

def Returns (f : Nat → Except ε α) (a : α) : Prop := ∃ n, f n = .ok a

def Steady (f : Nat → Except ε α) : Prop := ∀ n a, f n = .ok a → f (n + 1) = .ok a

namespace Steady

variable {f : Nat → Except ε α} {g : α → Nat → Except ε β}

theorem const (x : Except ε α) : Steady fun _ => x := fun _ _ h => h

theorem mono (h : Steady f) {n m : Nat} {a : α} (hle : n ≤ m) (hn : f n = .ok a) : f m = .ok a := by
  induction hle with
  | refl => exact hn
  | step _ ih => exact h _ a ih

theorem bind (hf : Steady f) (hg : ∀ a, Steady (g a)) : Steady fun n => f n >>= fun a => g a n := by
  intro n b h
  obtain ⟨a, ha, hb⟩ := Except.bind_eq_ok_iff.mp h
  exact Except.bind_eq_ok_iff.mpr ⟨a, hf n a ha, hg a n b hb⟩

end Steady

namespace Returns

variable {f : Nat → Except ε α} {g : α → Nat → Except ε β} {a a' : α} {b : β}

theorem unique (hf : Steady f) (h : Returns f a) (h' : Returns f a') : a = a' := by
  obtain ⟨n, hn⟩ := h
  obtain ⟨m, hm⟩ := h'
  have he := (hf.mono (Nat.le_max_left n m) hn).symm.trans (hf.mono (Nat.le_max_right n m) hm)
  exact Except.ok.inj he

theorem const_iff {x : Except ε α} : Returns (fun _ => x) a ↔ x = .ok a :=
  ⟨fun ⟨_, h⟩ => h, fun h => ⟨0, h⟩⟩

/-- The first round of a loop that needs one. -/
theorem succ_iff (h0 : ∀ a, f 0 ≠ .ok a) : Returns f a ↔ Returns (fun n => f (n + 1)) a := by
  constructor
  · rintro ⟨n, hn⟩
    cases n with
    | zero => exact absurd hn (h0 a)
    | succ n => exact ⟨n, hn⟩
  · exact fun ⟨n, hn⟩ => ⟨n + 1, hn⟩

theorem bind_iff (hf : Steady f) (hg : ∀ a, Steady (g a)) :
    Returns (fun n => f n >>= fun a => g a n) b ↔ ∃ a, Returns f a ∧ Returns (g a) b := by
  constructor
  · rintro ⟨n, hn⟩
    obtain ⟨a, ha, hb⟩ := Except.bind_eq_ok_iff.mp hn
    exact ⟨a, ⟨n, ha⟩, ⟨n, hb⟩⟩
  · rintro ⟨a, ⟨n, hn⟩, ⟨m, hm⟩⟩
    exact ⟨max n m, Except.bind_eq_ok_iff.mpr
      ⟨a, hf.mono (Nat.le_max_left n m) hn, (hg a).mono (Nat.le_max_right n m) hm⟩⟩

end Returns
