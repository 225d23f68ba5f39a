import Mathlib.Data.List.Basic

/-!
# Backtracking patterns

A pattern over any alphabet has a list of matches at the beginning of a text, in
the order in which a backtracking matcher tries them: a repetition takes as much
as it can first, an alternative its left side. A search gives the first match at
the leftmost position where there is one.
-/

namespace CacheServer

inductive Pattern (α : Type) where
  | one (p : α → Bool)
  | many (p : α → Bool)
  | seq (a b : Pattern α)
  | either (a b : Pattern α)
  | group (a : Pattern α)
  | absent (groups : Nat)

/-- What is taken of a text, the groups in it, and what is left. -/
structure Pattern.Match (α : Type) where
  text : List α
  groups : List (List α)
  rest : List α
  deriving DecidableEq, Repr

namespace Pattern
variable {α : Type}

def Match.then (m n : Match α) : Match α := ⟨m.text ++ n.text, m.groups ++ n.groups, n.rest⟩

def Match.grouped (m : Match α) : Match α := ⟨m.text, m.text :: m.groups, m.rest⟩

def Match.after (xs : List α) (m : Match α) : Match α := ⟨xs ++ m.text, m.groups, m.rest⟩

/-- The longest run first. -/
def runs (p : α → Bool) : List α → List (Match α)
  | [] => [⟨[], [], []⟩]
  | x :: xs =>
    if p x then (runs p xs).map (Match.after [x]) ++ [⟨[], [], x :: xs⟩] else [⟨[], [], x :: xs⟩]

/-- The matches at the beginning of the text. -/
def ways : Pattern α → List α → List (Match α)
  | .one _, [] => []
  | .one p, x :: xs => if p x then [⟨[x], [], xs⟩] else []
  | .many p, xs => runs p xs
  | .seq a b, xs => (a.ways xs).flatMap fun m => (b.ways m.rest).map m.then
  | .either a b, xs => a.ways xs ++ b.ways xs
  | .group a, xs => (a.ways xs).map Match.grouped
  | .absent groups, xs => [⟨[], List.replicate groups [], xs⟩]

/-- The match at the leftmost position that has one, and its groups. -/
def search (a : Pattern α) : List α → Option (Match α)
  | [] => (a.ways []).head?
  | x :: xs =>
    match (a.ways (x :: xs)).head? with
    | some m => some m
    | none => search a xs

/-- The word itself. -/
def word [DecidableEq α] : List α → Pattern α
  | [] => .absent 0
  | x :: xs => .seq (.one fun y => y = x) (word xs)

section
variable {a b : Pattern α} {p : α → Bool} {xs ys rest : List α} {x : α} {m n : Match α}

/-! ### First matches -/

theorem head_one (hx : p x = true) : ((one p).ways (x :: xs)).head? = some ⟨[x], [], xs⟩ := by
  simp [ways, hx]

theorem head_seq (ha : (a.ways xs).head? = some m) (hb : (b.ways m.rest).head? = some n) :
    ((seq a b).ways xs).head? = some (m.then n) := by
  obtain ⟨ms, hms⟩ := List.head?_eq_some_iff.mp ha
  obtain ⟨ns, hns⟩ := List.head?_eq_some_iff.mp hb
  simp [ways, hms, hns]

theorem head_either (ha : (a.ways xs).head? = some m) : ((either a b).ways xs).head? = some m := by
  obtain ⟨ms, hms⟩ := List.head?_eq_some_iff.mp ha
  simp [ways, hms]

theorem head_either_right (ha : a.ways xs = []) (hb : (b.ways xs).head? = some m) :
    ((either a b).ways xs).head? = some m := by
  rw [ways, ha, List.nil_append, hb]

theorem head_group (ha : (a.ways xs).head? = some m) :
    ((group a).ways xs).head? = some m.grouped := by
  rw [ways, List.head?_map, ha]
  rfl

theorem search_start (ha : (a.ways xs).head? = some m) : a.search xs = some m := by
  cases xs with
  | nil => exact ha
  | cons x xs => simp only [search, ha]

/-- Where nothing matches the search goes on. -/
theorem search_skip (hx : ∀ zs, a.ways (x :: zs) = []) : a.search (x :: xs) = a.search xs := by
  simp only [search, hx, List.head?_nil]

theorem search_append (hx : ∀ x ∈ xs, ∀ zs, a.ways (x :: zs) = []) :
    a.search (xs ++ ys) = a.search ys := by
  induction xs with
  | nil => rfl
  | cons x xs ih =>
    rw [List.cons_append, search_skip (hx x (List.mem_cons_self ..))]
    exact ih fun z hz => hx z (List.mem_cons_of_mem _ hz)

theorem search_none (h : ∀ zs, zs <:+ xs → a.ways zs = []) : a.search xs = none := by
  induction xs with
  | nil => rw [search, h [] (List.suffix_refl _)]; rfl
  | cons x xs ih =>
    rw [search, h (x :: xs) (List.suffix_refl _)]
    exact ih fun zs hzs => h zs (hzs.trans (List.suffix_cons x xs))

/-! ### Runs -/

theorem runs_append (ys : List α) (hxs : ∀ x ∈ xs, p x = true) :
    ∃ shorter, runs p (xs ++ ys) = (runs p ys).map (Match.after xs) ++ shorter := by
  induction xs with
  | nil => exact ⟨[], by simp [show Match.after ([] : List α) = id from rfl]⟩
  | cons x xs ih =>
    obtain ⟨shorter, hruns⟩ := ih fun z hz => hxs z (List.mem_cons_of_mem _ hz)
    refine ⟨shorter.map (Match.after [x]) ++ [⟨[], [], x :: (xs ++ ys)⟩], ?_⟩
    rw [List.cons_append, runs, if_pos (hxs x (List.mem_cons_self ..)), hruns]
    simp [Match.after, Function.comp_def]

theorem runs_stop (hstop : ∀ y ∈ ys.head?, p y = false) : runs p ys = [⟨[], [], ys⟩] := by
  cases ys with
  | nil => rfl
  | cons y ys => rw [runs, if_neg (by simp [hstop y rfl])]

theorem head_many (hxs : ∀ x ∈ xs, p x = true) (hstop : ∀ y ∈ ys.head?, p y = false) :
    ((many p).ways (xs ++ ys)).head? = some ⟨xs, [], ys⟩ := by
  obtain ⟨shorter, hruns⟩ := runs_append ys hxs
  rw [ways, hruns, runs_stop hstop]
  simp [Match.after]

theorem runs_last (p : α → Bool) (ys : List α) :
    ∃ longer, runs p ys = longer ++ [⟨[], [], ys⟩] ∧ ∀ m ∈ longer, m.text ≠ [] := by
  cases ys with
  | nil => exact ⟨[], rfl, fun m hm => by cases hm⟩
  | cons y ys =>
    rw [runs]
    split
    · refine ⟨_, rfl, fun m hm => ?_⟩
      obtain ⟨m', -, rfl⟩ := List.mem_map.mp hm
      simp [Match.after]
    · exact ⟨[], rfl, fun m hm => by cases hm⟩

/-- A run gives back what the rest of the pattern needs. -/
theorem head_run_seq (hxs : ∀ x ∈ xs, p x = true)
    (hmore : ∀ m ∈ runs p ys, m.text ≠ [] → b.ways m.rest = []) (hb : (b.ways ys).head? = some n) :
    ((seq (group (many p)) b).ways (xs ++ ys)).head? =
      some ⟨xs ++ n.text, xs :: n.groups, n.rest⟩ := by
  obtain ⟨shorter, hruns⟩ := runs_append ys hxs
  obtain ⟨longer, hlast, hnonempty⟩ := runs_last p ys
  obtain ⟨ns, hns⟩ := List.head?_eq_some_iff.mp hb
  have hnone : ∀ m ∈ longer, b.ways m.rest = [] := fun m hm =>
    hmore m (hlast ▸ List.mem_append_left _ hm) (hnonempty m hm)
  have hskip : ((longer.map (Match.grouped ∘ Match.after xs)).flatMap fun m =>
      (b.ways m.rest).map m.then) = [] := by
    rw [List.flatMap_eq_nil_iff]
    intro m hm
    obtain ⟨m', hm', rfl⟩ := List.mem_map.mp hm
    rw [show (Match.grouped ∘ Match.after xs) m' = ⟨_, _, m'.rest⟩ from rfl, hnone m' hm']
    rfl
  simp only [ways, hruns, hlast, List.map_append, List.map_map, List.flatMap_append, hskip,
    List.nil_append, List.map_cons, List.map_nil, List.flatMap_cons, List.flatMap_nil]
  simp [Match.after, Match.grouped, Match.then, hns]

/-! ### Where nothing matches -/

theorem rest_runs (h : m ∈ runs p xs) : m.rest <:+ xs := by
  induction xs generalizing m with
  | nil =>
    obtain rfl := List.mem_singleton.mp h
    exact List.suffix_refl _
  | cons x xs ih =>
    rw [runs] at h
    split at h
    · rcases List.mem_append.mp h with h | h
      · obtain ⟨m', hm', rfl⟩ := List.mem_map.mp h
        exact (ih hm').trans (List.suffix_cons x xs)
      · obtain rfl := List.mem_singleton.mp h
        exact List.suffix_refl _
    · obtain rfl := List.mem_singleton.mp h
      exact List.suffix_refl _

/-- A match leaves the end of the text. -/
theorem rest_suffix (h : m ∈ a.ways xs) : m.rest <:+ xs := by
  induction a generalizing xs m with
  | one p =>
    cases xs with
    | nil => cases h
    | cons x xs =>
      rw [ways] at h
      split at h
      · obtain rfl := List.mem_singleton.mp h
        exact List.suffix_cons x xs
      · cases h
  | many p => exact rest_runs h
  | seq a b iha ihb =>
    obtain ⟨m', hm', h⟩ := List.mem_flatMap.mp h
    obtain ⟨n, hn, rfl⟩ := List.mem_map.mp h
    exact (ihb hn).trans (iha hm')
  | either a b iha ihb => exact (List.mem_append.mp h).elim iha ihb
  | group a iha =>
    obtain ⟨m', hm', rfl⟩ := List.mem_map.mp h
    exact iha (m := m') hm'
  | absent groups =>
    obtain rfl := List.mem_singleton.mp h
    exact List.suffix_refl _

theorem seq_none (h : ∀ m ∈ a.ways xs, b.ways m.rest = []) : (seq a b).ways xs = [] := by
  rw [ways, List.flatMap_eq_nil_iff]
  intro m hm
  rw [h m hm, List.map_nil]

theorem one_none (h : ∀ x ∈ xs.head?, p x = false) : (one p).ways xs = [] := by
  cases xs with
  | nil => rfl
  | cons x xs => rw [ways, if_neg (by simp [h x rfl])]

theorem seq_none_left (h : a.ways xs = []) : (seq a b).ways xs = [] :=
  seq_none fun m hm => by rw [h] at hm; cases hm

theorem group_none (h : a.ways xs = []) : (group a).ways xs = [] := by rw [ways, h, List.map_nil]

/-! ### Words -/

section
variable [DecidableEq α] {w : List α}

theorem ways_word : (word w).ways (w ++ xs) = [⟨w, [], xs⟩] := by
  induction w with
  | nil => rfl
  | cons x w ih => simp [word, ways, ih, Match.then]

theorem head_word : ((word w).ways (w ++ xs)).head? = some ⟨w, [], xs⟩ := by rw [ways_word]; rfl

/-- A word has no match where one of its letters is missing. -/
theorem word_none (hx : x ∈ w) (hxs : x ∉ xs) : (word w).ways xs = [] := by
  induction w generalizing xs with
  | nil => cases hx
  | cons y w ih =>
    rw [word]
    cases hx with
    | head =>
      refine seq_none_left (one_none fun z hz => ?_)
      have : z ≠ x := fun e => hxs (e ▸ List.mem_of_mem_head? hz)
      simpa using this
    | tail _ hx => exact seq_none fun m hm => ih hx fun h => hxs ((rest_suffix hm).subset h)

end

end

end Pattern

end CacheServer
