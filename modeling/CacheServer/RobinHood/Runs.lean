import CacheServer.Library.KeyedMultiset
import CacheServer.RobinHood.Calls

/-!
# The hash table as a map

`Holds` says that a valid table holds a map from keys to items. `TableRun` puts
any calls of hashmap.c beside such a map, with malloc answering as it likes and
the table growing and shrinking as it does; a run only has to stay below the
number of items at which `dib` could wrap.
-/

namespace CacheServer.RobinHood

variable {α κ : Type} {cb : Callbacks α} {key : α → κ} {legal : Set α} {map map' : Hashmap α}
  {mallocs : Mallocs} {M : κ → Option α} {a b : α} {x : Nat × α}

/-- The callbacks tell two legal items apart by their keys. -/
def Lawful (cb : Callbacks α) (key : α → κ) (legal : Set α) : Prop :=
  ∀ a ∈ legal, ∀ b ∈ legal, Match cb (cb.entry a) (cb.entry b) ↔ key a = key b

structure Holds (cb : Callbacks α) (key : α → κ) (legal : Set α) (map : Hashmap α)
    (M : κ → Option α) : Prop where
  valid : map.Valid
  hashed : ∀ x ∈ map.items, x = cb.entry x.2
  legal : ∀ x ∈ map.items, x.2 ∈ legal
  represents : Represents key (map.items.map Prod.snd) M

theorem Holds.match_iff (h : Holds cb key legal map M) (hl : Lawful cb key legal)
    (ha : a ∈ legal) (hx : x ∈ map.items) : Match cb (cb.entry a) x ↔ key a = key x.2 := by
  rw [h.hashed x hx]
  exact hl a ha x.2 (h.legal x hx)

theorem Holds.get (h : Holds cb key legal map M) (hx : x ∈ map.items) : M (key x.2) = some x.2 :=
  h.represents.eq_some (Multiset.mem_map_of_mem Prod.snd hx)

/-- Either an item matches the one with the key of `a` or there is none. -/
theorem Holds.find (h : Holds cb key legal map M) (hl : Lawful cb key legal) (ha : a ∈ legal) :
    (∃ x ∈ map.items, Match cb (cb.entry a) x) ∨
      (∀ x ∈ map.items, ¬ Match cb (cb.entry a) x) ∧ M (key a) = none := by
  by_cases hex : ∃ x ∈ map.items, Match cb (cb.entry a) x
  · exact Or.inl hex
  · have hno : ∀ x ∈ map.items, ¬ Match cb (cb.entry a) x := fun x hx hm => hex ⟨x, hx, hm⟩
    refine Or.inr ⟨hno, h.represents.eq_none fun b hb he => ?_⟩
    obtain ⟨x, hx, rfl⟩ := Multiset.mem_map.mp hb
    exact hno x hx ((h.match_iff hl ha hx).mpr he.symm)

/-! ### One call -/

theorem Holds.empty (hv : map.Valid) (hzero : map.items = 0) :
    Holds cb key legal map fun _ => none where
  valid := hv
  hashed x hx := by
    rw [hzero] at hx
    exact absurd hx (Multiset.notMem_zero x)
  legal x hx := by
    rw [hzero] at hx
    exact absurd hx (Multiset.notMem_zero x)
  represents := by
    rw [hzero, Multiset.map_zero]
    exact Represents.zero key

theorem Holds.opened [Inhabited α] {cap : Nat} (hcap : cap ≤ 2 ^ 30)
    (hnew : hashmapNew mallocs cap = .ok (some map)) :
    Holds cb key legal map fun _ => none := by
  obtain ⟨hvalid, hzero⟩ := hashmapNew_valid hcap hnew
  exact Holds.empty hvalid hzero

theorem Holds.hashmapGet (h : Holds cb key legal map M) (hl : Lawful cb key legal)
    (ha : a ∈ legal) : hashmapGet cb map a = .ok (M (key a)) := by
  rcases h.find hl ha with ⟨x, hx, hm⟩ | ⟨hno, hnone⟩
  · obtain ⟨y, hy, hmatch, he⟩ := hashmapGet_hit h.valid hx hm
    rw [he, (h.match_iff hl ha hy).mp hmatch, h.get hy]
  · rw [hashmapGet_miss h.valid hno, hnone]

/-- The new item beside the stored ones. -/
theorem Holds.separate (h : Holds cb key legal map M) (hl : Lawful cb key legal) (ha : a ∈ legal)
    (hnone : M (key a) = none) : Separate cb (map.items + {cb.entry a}) := by
  classical
  have hadd := h.represents.add hnone
  intro x y hle hmatch
  have hsub : ∀ z ∈ map.items + {cb.entry a}, z = cb.entry z.2 ∧ z.2 ∈ legal := by
    intro z hz
    rcases Multiset.mem_add.mp hz with hz | hz
    · exact ⟨h.hashed z hz, h.legal z hz⟩
    · rw [Multiset.mem_singleton.mp hz]
      exact ⟨rfl, ha⟩
  obtain ⟨hx, hxl⟩ := hsub x (Multiset.mem_of_le hle (Multiset.mem_cons_self ..))
  obtain ⟨hy, hyl⟩ := hsub y (Multiset.mem_of_le hle
    (Multiset.mem_cons_of_mem (Multiset.mem_singleton_self _)))
  rw [hx, hy, hl x.2 hxl y.2 hyl] at hmatch
  refine hadd.key_ne (a := x.2) (b := y.2) ?_ hmatch
  have hmap := Multiset.map_le_map (f := Prod.snd) hle
  rw [Multiset.map_add, Multiset.map_singleton] at hmap
  exact hmap

theorem Holds.hashmapClear [Inhabited α] (h : Holds cb key legal map M) (updateCap malloced : Bool) :
    ∃ map', hashmapClear updateCap malloced map = .ok map' ∧
      Holds cb key legal map' fun _ => none := by
  obtain ⟨map', he, hvalid, hzero⟩ := hashmapClear_ok h.valid updateCap malloced
  exact ⟨map', he, Holds.empty hvalid hzero⟩

section
variable [Inhabited α] [DecidableEq κ]

/-- The answer of `hashmap_set` on the map, and the map after it. -/
def setAnswer (key : α → κ) (failed : Bool) (a : α) (M : κ → Option α) :
    Option α × (κ → Option α) :=
  if failed then (none, M) else (M (key a), Function.update M (key a) (some a))

theorem Holds.hashmapSet (mallocs : Mallocs) (h : Holds cb key legal map M) (hl : Lawful cb key legal)
    (ha : a ∈ legal) (hsmall : map.count + 1 < dibSize) :
    ∃ map', hashmapSet cb mallocs map a =
        .ok ((setAnswer key (decide (GrowthFails mallocs map)) a M).1, map') ∧
      Holds cb key legal map' (setAnswer key (decide (GrowthFails mallocs map)) a M).2 ∧
      map'.oom = decide (GrowthFails mallocs map) := by
  by_cases hg : GrowthFails mallocs map
  · simp only [setAnswer, hg, decide_true, if_true]
    refine ⟨_, hashmapSet_oom h.valid (Nat.lt_of_succ_lt hsmall) hg, ?_, rfl⟩
    exact ⟨{ h.valid with }, h.hashed, h.legal, h.represents⟩
  · simp only [setAnswer, hg, decide_false, Bool.false_eq_true, if_false]
    obtain ⟨grown, hset, hvalid, hitems, hroom, hoom⟩ :=
      hashmapSet_grown cb a h.valid hsmall hg
    have hcount : grown.count = map.count := by
      rw [hvalid.count_eq, hitems, h.valid.count_eq]
    have hgrown : Holds cb key legal grown M := by
      refine ⟨hvalid, ?_, ?_, ?_⟩
      · rw [hitems]
        exact h.hashed
      · rw [hitems]
        exact h.legal
      · rw [hitems]
        exact h.represents
    rw [hset]
    rcases hgrown.find hl ha with ⟨x, hx, hm⟩ | ⟨hno, hnone⟩
    · obtain ⟨y, hy, hmatch, map', hinsert, hvalid', hitems', hoom'⟩ :=
        insert_hit hvalid (by omega) hx hm
      have hkey := (hgrown.match_iff hl ha hy).mp hmatch
      have hmem : ∀ z ∈ map'.items, z ∈ grown.items ∨ z = cb.entry a := by
        intro z hz
        have hz' : z ∈ grown.items + {cb.entry a} := by
          rw [← hitems']
          exact Multiset.mem_add.mpr (Or.inl hz)
        simpa using hz'
      refine ⟨map', ?_, ⟨hvalid', ?_, ?_, ?_⟩, by rw [hoom', hoom]⟩
      · rw [hinsert, hkey, hgrown.get hy]
      · intro z hz
        rcases hmem z hz with hz | rfl
        · exact hgrown.hashed z hz
        · rfl
      · intro z hz
        rcases hmem z hz with hz | rfl
        · exact hgrown.legal z hz
        · exact ha
      · refine hgrown.represents.exchange (Multiset.mem_map_of_mem Prod.snd hy) hkey ?_
        have hmap := congrArg (Multiset.map Prod.snd) hitems'
        rw [Multiset.map_add, Multiset.map_add, Multiset.map_singleton,
          Multiset.map_singleton] at hmap
        exact hmap
    · obtain ⟨map', hinsert, hvalid', hitems', hoom'⟩ :=
        insert_miss hvalid hroom (by omega) (hgrown.separate hl ha hnone)
      refine ⟨map', ?_, ⟨hvalid', ?_, ?_, ?_⟩, by rw [hoom', hoom]⟩
      · rw [hinsert, hnone]
      · rw [hitems']
        intro z hz
        rcases Multiset.mem_add.mp hz with hz | hz
        · exact hgrown.hashed z hz
        · rw [Multiset.mem_singleton.mp hz]
          rfl
      · rw [hitems']
        intro z hz
        rcases Multiset.mem_add.mp hz with hz | hz
        · exact hgrown.legal z hz
        · rw [Multiset.mem_singleton.mp hz]
          exact ha
      · rw [hitems', Multiset.map_add, Multiset.map_singleton]
        exact hgrown.represents.add hnone

theorem Holds.hashmapDelete (mallocs : Mallocs) (h : Holds cb key legal map M)
    (hl : Lawful cb key legal) (ha : a ∈ legal) (hsmall : map.count < dibSize) :
    ∃ map', hashmapDelete cb mallocs map a = .ok (M (key a), map') ∧
      Holds cb key legal map' (Function.update M (key a) none) ∧ map'.oom = false := by
  rcases h.find hl ha with ⟨x, hx, hm⟩ | ⟨hno, hnone⟩
  · obtain ⟨y, hy, hmatch, map', hdelete, hvalid, hitems, hoom⟩ :=
      hashmapDelete_hit mallocs h.valid hsmall hx hm
    have hkey := (h.match_iff hl ha hy).mp hmatch
    have hmem : ∀ z ∈ map'.items, z ∈ map.items := by
      intro z hz
      rw [← hitems]
      exact Multiset.mem_add.mpr (Or.inl hz)
    refine ⟨map', ?_, ⟨hvalid, fun z hz => h.hashed z (hmem z hz),
      fun z hz => h.legal z (hmem z hz), ?_⟩, hoom⟩
    · rw [hdelete, hkey, h.get hy]
    · rw [hkey]
      refine h.represents.takeOut ?_
      have hmap := congrArg (Multiset.map Prod.snd) hitems
      rw [Multiset.map_add, Multiset.map_singleton] at hmap
      exact hmap
  · refine ⟨_, by rw [hashmapDelete_miss h.valid hno, hnone], ?_, rfl⟩
    rw [← hnone, Function.update_eq_self]
    exact ⟨{ h.valid with }, h.hashed, h.legal, h.represents⟩

end

/-! ### Runs -/

inductive Call (α : Type) where
  | set (item : α) (mallocs : Mallocs)
  | get (key : α)
  | delete (key : α) (mallocs : Mallocs)
  | clear (updateCap malloced : Bool)
  | count
  deriving DecidableEq, Repr

-- `set` is followed by `hashmap_oom`
inductive Answer (α : Type) where
  | set (replaced : Option α) (oom : Bool)
  | item (found : Option α)
  | cleared
  | count (n : Nat)
  deriving DecidableEq, Repr

namespace Call

def Legal (legal : Set α) : Call α → Prop
  | set a _ | get a | delete a _ => a ∈ legal
  | clear _ _ | count => True

def apply [Inhabited α] (cb : Callbacks α) (map : Hashmap α) :
    Call α → Except Fault (Answer α × Hashmap α)
  | set a mallocs => do
    let (replaced, map) ← RobinHood.hashmapSet cb mallocs map a
    .ok (.set replaced map.oom, map)
  | get a => do
    let found ← RobinHood.hashmapGet cb map a
    .ok (.item found, map)
  | delete a mallocs => do
    let (found, map) ← RobinHood.hashmapDelete cb mallocs map a
    .ok (.item found, map)
  | clear updateCap malloced => do
    let map ← RobinHood.hashmapClear updateCap malloced map
    .ok (.cleared, map)
  | count => .ok (.count map.count, map)

/-- The call meets a table that has to grow and cannot. -/
def Fails (map : Hashmap α) : Call α → Bool
  | set _ mallocs => decide (GrowthFails mallocs map)
  | get _ | delete _ _ | clear _ _ | count => false

/-- The call on the map that the table stands for. -/
noncomputable def reference [DecidableEq κ] (key : α → κ) (failed : Bool) (M : κ → Option α) :
    Call α → Answer α × (κ → Option α)
  | set a _ => (.set (setAnswer key failed a M).1 failed, (setAnswer key failed a M).2)
  | get a => (.item (M (key a)), M)
  | delete a _ => (.item (M (key a)), Function.update M (key a) none)
  | clear _ _ => (.cleared, fun _ => none)
  | count => (.count {k | M k ≠ none}.ncard, M)

end Call

section
variable [Inhabited α] [DecidableEq κ] {call : Call α}

inductive TableRun (cb : Callbacks α) (key : α → κ) (legal : Set α) :
    (κ → Option α) → Hashmap α → Prop
  | opened {mallocs : Mallocs} {cap : Nat} {map : Hashmap α} (small : cap ≤ 2 ^ 30)
      (new : hashmapNew mallocs cap = .ok (some map)) : TableRun cb key legal (fun _ => none) map
  | called {M : κ → Option α} {map map' : Hashmap α} {answer : Answer α} (call : Call α)
      (run : TableRun cb key legal M map) (mem : call.Legal legal)
      (small : map.count + 1 < dibSize) (step : call.apply cb map = .ok (answer, map')) :
      TableRun cb key legal (call.reference key (call.Fails map) M).2 map'

theorem Holds.apply (h : Holds cb key legal map M) (hl : Lawful cb key legal)
    (hc : call.Legal legal) (hsmall : map.count + 1 < dibSize) :
    ∃ map', call.apply cb map = .ok ((call.reference key (call.Fails map) M).1, map') ∧
      Holds cb key legal map' (call.reference key (call.Fails map) M).2 := by
  cases call with
  | set a mallocs =>
    obtain ⟨map', hset, hholds, hoom⟩ := h.hashmapSet mallocs hl hc hsmall
    refine ⟨map', ?_, hholds⟩
    simp only [Call.apply, hset]
    change Except.ok _ = _
    rw [hoom]
    rfl
  | get a =>
    refine ⟨map, ?_, h⟩
    simp only [Call.apply, h.hashmapGet hl hc]
    rfl
  | delete a mallocs =>
    obtain ⟨map', hdelete, hholds, -⟩ :=
      h.hashmapDelete mallocs hl hc (Nat.lt_of_succ_lt hsmall)
    refine ⟨map', ?_, hholds⟩
    simp only [Call.apply, hdelete]
    rfl
  | clear updateCap malloced =>
    obtain ⟨map', hclear, hholds⟩ := h.hashmapClear updateCap malloced
    refine ⟨map', ?_, hholds⟩
    simp only [Call.apply, hclear]
    rfl
  | count =>
    refine ⟨map, ?_, h⟩
    have hcard := h.represents.ncard_eq
    rw [Multiset.card_map, ← h.valid.count_eq] at hcard
    simp only [Call.apply, Call.reference, hcard]

theorem TableRun.holds (run : TableRun cb key legal M map) (hl : Lawful cb key legal) :
    Holds cb key legal map M := by
  induction run with
  | opened small new => exact Holds.opened small new
  | called call run mem small step ih =>
    obtain ⟨map', happly, hholds⟩ := ih.apply hl mem small
    rw [happly] at step
    cases step
    exact hholds

/-- Every call ends, answers as the map does and leaves what the map then has. -/
theorem hashmap_isMap (run : TableRun cb key legal M map) (hl : Lawful cb key legal)
    (hc : call.Legal legal) (hsmall : map.count + 1 < dibSize) :
    ∃ map', call.apply cb map = .ok ((call.reference key (call.Fails map) M).1, map') ∧
      Holds cb key legal map' (call.reference key (call.Fails map) M).2 :=
  (run.holds hl).apply hl hc hsmall

end

/-! ### Two numbers of one home -/

def numbers : Callbacks Nat := ⟨fun a => a, fun a b => (a : Int) - b⟩

theorem numbers_lawful : Lawful numbers (fun a => a) Set.univ := by
  intro a _ b _
  constructor
  · rintro ⟨-, hcompare⟩
    have hcompare : (a : Int) - b = 0 := hcompare
    exact Int.natCast_inj.mp (Int.sub_eq_zero.mp hcompare)
  · rintro rfl
    exact ⟨rfl, Int.sub_self _⟩

/- 5 and 21 have the same home in a table of 16 buckets. -/
def collided : Hashmap Nat where
  oom := false
  cap := 16
  nbuckets := 16
  count := 2
  mask := 15
  growat := 12
  shrinkat := 1
  buckets := Function.update (Function.update zeroed 5 ⟨5, 1, 5⟩) 6 ⟨21, 2, 21⟩

theorem collided_run : TableRun numbers (fun a => a) Set.univ
    (Function.update (Function.update (fun _ => none) 5 (some 5)) 21 (some 21)) collided := by
  have run₀ : TableRun numbers (fun a => a) Set.univ _ _ :=
    .opened (by decide) (rfl : hashmapNew ⟨true, true⟩ 0 = .ok (some _))
  have run₁ : TableRun numbers (fun a => a) Set.univ _ _ :=
    .called (.set 5 ⟨true, true⟩) run₀ trivial (by decide) rfl
  exact .called (.set 21 ⟨false, false⟩) run₁ trivial (by decide) rfl

theorem hashmap_isMap_collided : ∃ map',
    Call.apply numbers collided (.delete 5 ⟨true, true⟩) = .ok (.item (some 5), map') ∧
      map'.Valid ∧ hashmapGet numbers map' 5 = .ok none ∧
      hashmapGet numbers map' 21 = .ok (some 21) := by
  obtain ⟨map', happly, hholds⟩ := hashmap_isMap collided_run numbers_lawful
    (show Call.Legal Set.univ (.delete 5 ⟨true, true⟩) from trivial) (by decide)
  exact ⟨map', happly, hholds.valid, hholds.hashmapGet numbers_lawful trivial,
    hholds.hashmapGet numbers_lawful trivial⟩

section
variable [Inhabited α] [DecidableEq κ] {call : Call α}

/-! ### Scanning -/

/-- The items in the order of their buckets. -/
def takenItems (buckets : Nat → Bucket α) (l : List Nat) : List α :=
  l.filterMap fun i => if (buckets i).dib = 0 then none else some (buckets i).item

/-- `iter` on each item of a list until it says to stop. -/
def scanList {β : Type} (iter : α → β → Bool × β) : List α → β → Bool × β
  | [], udata => (true, udata)
  | a :: rest, udata =>
    match iter a udata with
    | (false, udata) => (false, udata)
    | (true, udata) => scanList iter rest udata

/-- The calls of `hashmap_iter` from cursor `i` on yield these items, then none. -/
inductive Iterates (map : Hashmap α) : Nat → List α → Prop
  | done {i j : Nat} (h : hashmapIter map i = (none, j)) : Iterates map i []
  | next {i j : Nat} {a : α} {l : List α} (h : hashmapIter map i = (some a, j))
      (rest : Iterates map j l) : Iterates map i (a :: l)

end

section
variable {buckets : Nat → Bucket α} {l : List Nat} {i n : Nat}

theorem takenItems_empty (h : (buckets i).dib = 0) :
    takenItems buckets (i :: l) = takenItems buckets l :=
  List.filterMap_cons_none (if_pos h)

theorem takenItems_taken (h : (buckets i).dib ≠ 0) :
    takenItems buckets (i :: l) = (buckets i).item :: takenItems buckets l :=
  List.filterMap_cons_some (if_neg h)

theorem takenItems_content (buckets : Nat → Bucket α) (n : Nat) :
    (takenItems buckets (List.range n) : Multiset α) = (content n buckets).map Prod.snd := by
  have hl : ∀ l : List Nat, (takenItems buckets l : Multiset α) =
      ((l.map fun i => (buckets i).cell).sum).map Prod.snd := by
    intro l
    induction l with
    | nil => rfl
    | cons i l ih =>
      rw [List.map_cons, List.sum_cons, Multiset.map_add, ← ih]
      by_cases h0 : (buckets i).dib = 0
      · rw [takenItems_empty h0, Bucket.cell_empty h0, Multiset.map_zero, zero_add]
      · rw [takenItems_taken h0, Bucket.cell_taken (by omega), Multiset.map_singleton,
          ← Multiset.cons_coe, Multiset.singleton_add]
        rfl
  exact hl (List.range n)

theorem scanLoop_eq {β : Type} (iter : α → β → Bool × β) (udata : β) :
    scanLoop iter buckets l udata = scanList iter (takenItems buckets l) udata := by
  induction l generalizing udata with
  | nil => rfl
  | cons i l ih =>
    rw [scanLoop]
    by_cases h0 : (buckets i).dib = 0
    · rw [if_pos h0, takenItems_empty h0]
      exact ih udata
    · rw [if_neg h0, takenItems_taken h0, scanList]
      rcases iter (buckets i).item udata with ⟨_ | _, u⟩
      · rfl
      · exact ih u

theorem iterates_range (map : Hashmap α) (hi : i + n = map.nbuckets) :
    Iterates map i (takenItems map.buckets (List.range' i n)) := by
  have hloop : hashmapIter map i = iterLoop map n i := by
    rw [hashmapIter]
    congr 1
    omega
  induction n generalizing i with
  | zero => exact Iterates.done hloop
  | succ n ih =>
    rw [List.range'_succ]
    have hrest : hashmapIter map (i + 1) = iterLoop map n (i + 1) := by
      rw [hashmapIter]
      congr 1
      omega
    have ih := ih (by omega) hrest
    rw [iterLoop] at hloop
    by_cases h0 : (map.buckets i).dib = 0
    · rw [if_pos h0, ← hrest] at hloop
      rw [takenItems_empty h0]
      generalize takenItems map.buckets (List.range' (i + 1) n) = items at ih ⊢
      cases ih with
      | done h => exact Iterates.done (hloop.trans h)
      | next h rest => exact Iterates.next (hloop.trans h) rest
    · rw [if_neg h0] at hloop
      rw [takenItems_taken h0]
      exact Iterates.next hloop ih

/-- `hashmap_probe` at every position finds the items in the order of their buckets. -/
theorem Hashmap.Valid.probes (hv : map.Valid) : (List.range map.nbuckets).filterMap (hashmapProbe map) =
    takenItems map.buckets (List.range map.nbuckets) := by
  refine List.filterMap_congr fun i hi => ?_
  have hbucket : i &&& map.mask = i := by
    rw [hv.and_mask, Nat.mod_eq_of_lt (List.mem_range.mp hi)]
  simp only [hashmapProbe, hbucket]

/-- `hashmap_scan`, `hashmap_iter` and `hashmap_probe` at one position after the other find the
items of the map in one order, each of them once. -/
theorem scan_isMap [Inhabited α] [DecidableEq κ] (run : TableRun cb key legal M map)
    (hl : Lawful cb key legal) : ∃ l : List α, (l.map key).Nodup ∧
      (∀ k a, M k = some a ↔ a ∈ l ∧ key a = k) ∧ Iterates map 0 l ∧
      (List.range map.nbuckets).filterMap (hashmapProbe map) = l ∧
      ∀ (β : Type) (iter : α → β → Bool × β) (udata : β),
        hashmapScan iter map udata = scanList iter l udata := by
  have hr := (run.holds hl).represents
  have hcontent := takenItems_content map.buckets map.nbuckets
  change _ = map.items.map Prod.snd at hcontent
  rw [← hcontent] at hr
  refine ⟨takenItems map.buckets (List.range map.nbuckets), ?_, hr.get, ?_,
    (run.holds hl).valid.probes, fun β iter udata => scanLoop_eq iter udata⟩
  · have hnodup := hr.distinct
    rw [Multiset.map_coe, Multiset.coe_nodup] at hnodup
    exact hnodup
  · rw [List.range_eq_range']
    exact iterates_range map (Nat.zero_add _)

end

theorem scan_isMap_collided : ∃ l : List Nat, 5 ∈ l ∧ 21 ∈ l ∧ l.Nodup ∧
    Iterates collided 0 l := by
  obtain ⟨l, hnodup, hget, hiter, -⟩ := scan_isMap collided_run numbers_lawful
  rw [List.map_id'] at hnodup
  exact ⟨l, ((hget 5 5).mp rfl).1, ((hget 21 21).mp rfl).1, hnodup, hiter⟩

/-! ### Runs with any callbacks -/

section
variable [Inhabited α]

/-- The callbacks may change from call to call and need not obey any law. -/
inductive CallRun : Hashmap α → Prop
  | opened {mallocs : Mallocs} {cap : Nat} {map : Hashmap α} (small : cap ≤ 2 ^ 30)
      (new : hashmapNew mallocs cap = .ok (some map)) : CallRun map
  | called {map map' : Hashmap α} {answer : Answer α} (cb : Callbacks α) (call : Call α)
      (run : CallRun map) (small : map.count + 1 < dibSize)
      (step : call.apply cb map = .ok (answer, map')) : CallRun map'

theorem Call.apply_ends (cb : Callbacks α) (call : Call α) (hv : map.Valid)
    (hsmall : map.count + 1 < dibSize) :
    ∃ answer map', call.apply cb map = .ok (answer, map') ∧ map'.Valid := by
  cases call with
  | set a mallocs =>
    obtain ⟨old, map', he, hvalid⟩ := hashmapSet_ends cb mallocs a hv hsmall
    exact ⟨_, map', by simp only [apply, he]; rfl, hvalid⟩
  | get a =>
    obtain ⟨found, he⟩ := hashmapGet_ends cb a hv
    exact ⟨_, map, by simp only [apply, he]; rfl, hv⟩
  | delete a mallocs =>
    obtain ⟨found, map', he, hvalid⟩ :=
      hashmapDelete_ends cb mallocs a hv (Nat.lt_of_succ_lt hsmall)
    exact ⟨_, map', by simp only [apply, he]; rfl, hvalid⟩
  | clear updateCap malloced =>
    obtain ⟨map', he, hvalid, -⟩ := hashmapClear_ok hv updateCap malloced
    exact ⟨_, map', by simp only [apply, he]; rfl, hvalid⟩
  | count => exact ⟨_, map, rfl, hv⟩

/-- No call loops for ever, and the table stays valid. -/
theorem hashmap_safe (run : CallRun map) : map.Valid ∧ (map.count + 1 < dibSize →
    ∀ (cb : Callbacks α) (call : Call α), ∃ answer map', call.apply cb map = .ok (answer, map')) := by
  have hv : map.Valid := by
    induction run with
    | opened small new => exact (hashmapNew_valid small new).1
    | called cb call run small step ih =>
      obtain ⟨answer, map', he, hvalid⟩ := call.apply_ends cb ih small
      rw [he] at step
      cases step
      exact hvalid
  refine ⟨hv, fun hsmall cb call => ?_⟩
  obtain ⟨answer, map', he, -⟩ := call.apply_ends cb hv hsmall
  exact ⟨answer, map', he⟩

end

/- Every item has the hash 0 and is taken for every other one. -/
theorem hashmap_safe_confused : ∃ map : Hashmap Nat, CallRun map ∧ map.Valid ∧ map.count = 1 ∧
    ∃ answer map', Call.apply ⟨fun _ => 0, fun _ _ => 0⟩ map (.set 2 ⟨true, true⟩) =
      .ok (answer, map') := by
  have run₀ : CallRun _ := .opened (by decide)
    (rfl : hashmapNew ⟨true, true⟩ 0 = .ok (some (_ : Hashmap Nat)))
  have run₁ : CallRun _ :=
    .called ⟨fun _ => 0, fun _ _ => 0⟩ (.set 1 ⟨true, true⟩) run₀ (by decide) rfl
  obtain ⟨hvalid, hends⟩ := hashmap_safe run₁
  exact ⟨_, run₁, hvalid, rfl, hends (by decide) _ _⟩

end CacheServer.RobinHood
