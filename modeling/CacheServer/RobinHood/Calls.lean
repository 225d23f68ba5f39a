import CacheServer.RobinHood.Order
import Mathlib.Algebra.BigOperators.Group.Finset.Basic
import Mathlib.Data.Nat.Bitwise
import Mathlib.Data.Multiset.AddSub

/-!
# The calls of the hash table

A valid table has a power of two of buckets, is in order and is never full. Each
call of hashmap.c ends, leaves a valid table and does to the content what it is
for, whatever malloc answers. Only `hashmap_set` needs the stored items to be
apart: an entry that it displaces is compared with others in its turn.
-/

namespace CacheServer.RobinHood

variable {α : Type} {cb : Callbacks α} {map map' : Hashmap α} {mallocs : Mallocs} {item key : α}
  {n mask c d fuel cap : Nat} {T : Multiset (Nat × α)}

def Hashmap.items (map : Hashmap α) : Multiset (Nat × α) := content map.nbuckets map.buckets

structure Hashmap.Valid (map : Hashmap α) : Prop where
  cap_pow : ∃ c, map.cap = 2 ^ c
  cap_ge : 16 ≤ map.cap
  cap_le : map.cap ≤ map.nbuckets
  size_pow : ∃ c, map.nbuckets = 2 ^ c
  size_le : map.nbuckets ≤ 2 ^ 30
  mask_eq : map.mask = map.nbuckets - 1
  growat_eq : map.growat = growAt map.nbuckets
  shrinkat_eq : map.shrinkat = shrinkAt map.nbuckets
  count_eq : map.count = map.items.card
  count_le : map.count ≤ map.growat
  ordered : Ordered map.nbuckets map.buckets

/-- Items that would be taken for each other. -/
def Match (cb : Callbacks α) (x y : Nat × α) : Prop := y.1 = x.1 ∧ cb.compare x.2 y.2 = 0

/-- No item is taken for another one. -/
def Separate (cb : Callbacks α) (T : Multiset (Nat × α)) : Prop :=
  ∀ x y, {x, y} ≤ T → ¬ Match cb x y

/-- What a bucket has to match to be the one of the key. -/
def Callbacks.entry (cb : Callbacks α) (key : α) : Nat × α := (getHash cb key, key)

/-! ### Sizes -/

theorem and_mask (h : ∃ c, n = 2 ^ c) (hm : mask = n - 1) (x : Nat) : x &&& mask = x % n := by
  obtain ⟨c, rfl⟩ := h
  rw [hm, Nat.and_two_pow_sub_one_eq_mod]

theorem doubleCap_pow (hd : d ≤ c) (hc : c ≤ 30) (hfuel : c - d < fuel) :
    doubleCap (2 ^ c) fuel (2 ^ d) = .ok (2 ^ c) := by
  induction fuel generalizing d with
  | zero => omega
  | succ fuel ih =>
    rw [doubleCap]
    by_cases hdc : d = c
    · subst hdc
      rw [if_neg (Nat.lt_irrefl _)]
    · have hlt : 2 ^ d < 2 ^ c := Nat.pow_lt_pow_right (by omega) (by omega)
      have hsmall : 2 ^ (d + 1) < 2 ^ 31 := Nat.pow_lt_pow_right (by omega) (by omega)
      rw [if_pos hlt, ← Nat.pow_succ, if_neg (by omega)]
      exact ih (by omega) (by omega)

/-- A capacity is rounded up to a power of two. -/
theorem doubleCap_ok (hcap : cap ≤ 2 ^ 30) (hfuel : 30 - d < fuel) (hd : d ≤ 30) :
    ∃ c, d ≤ c ∧ c ≤ 30 ∧ doubleCap cap fuel (2 ^ d) = .ok (2 ^ c) := by
  induction fuel generalizing d with
  | zero => omega
  | succ fuel ih =>
    rw [doubleCap]
    by_cases hlt : 2 ^ d < cap
    · have hd30 : d < 30 := by
        rcases Nat.lt_or_ge d 30 with h | h
        · exact h
        · have hpow : 2 ^ 30 ≤ 2 ^ d := Nat.pow_le_pow_right (by omega) h
          omega
      have hsmall : 2 ^ (d + 1) < 2 ^ 31 := Nat.pow_lt_pow_right (by omega) (by omega)
      rw [if_pos hlt, ← Nat.pow_succ, if_neg (by omega)]
      obtain ⟨c, hle, hc, he⟩ := ih (d := d + 1) (by omega) (by omega)
      exact ⟨c, by omega, hc, he⟩
    · exact ⟨d, Nat.le_refl d, hd, if_neg hlt⟩

theorem initialCap_pow (hge : 16 ≤ 2 ^ c) (hle : 2 ^ c ≤ 2 ^ 30) :
    initialCap (2 ^ c) = .ok (2 ^ c) := by
  have hc4 : 4 ≤ c := (Nat.pow_le_pow_iff_right (a := 2) (by omega)).mp hge
  have hc30 : c ≤ 30 := (Nat.pow_le_pow_iff_right (a := 2) (by omega)).mp hle
  unfold initialCap
  rw [if_neg (by omega)]
  exact doubleCap_pow hc4 hc30 (by omega)

theorem initialCap_ok (hcap : cap ≤ 2 ^ 30) :
    ∃ c, 4 ≤ c ∧ c ≤ 30 ∧ initialCap cap = .ok (2 ^ c) := by
  unfold initialCap
  by_cases h16 : cap < 16
  · exact ⟨4, Nat.le_refl 4, by omega, if_pos h16⟩
  · rw [if_neg h16]
    exact doubleCap_ok hcap (by omega) (by omega)

/-! ### New tables -/

theorem hashmapNew_none [Inhabited α] (hcap : cap ≤ 2 ^ 30)
    (hm : ¬ (mallocs.map = true ∧ mallocs.buckets = true)) :
    hashmapNew (α := α) mallocs cap = .ok none := by
  obtain ⟨c, -, -, he⟩ := initialCap_ok hcap
  rw [hashmapNew, he]
  by_cases hmap : mallocs.map = true
  · have hbuckets : ¬ mallocs.buckets = true := fun h => hm ⟨hmap, h⟩
    simp [hmap, hbuckets]
  · simp [hmap]

theorem hashmapNew_some (α : Type) [Inhabited α] (hcap : cap ≤ 2 ^ 30) (h1 : mallocs.map = true)
    (h2 : mallocs.buckets = true) : ∃ map : Hashmap α, hashmapNew mallocs cap = .ok (some map) ∧
      map.Valid ∧ map.items = 0 := by
  obtain ⟨c, hc4, hc30, he⟩ := initialCap_ok hcap
  rw [hashmapNew, he]
  have hge : 2 ^ 4 ≤ 2 ^ c := Nat.pow_le_pow_right (by omega) hc4
  have hle : 2 ^ c ≤ 2 ^ 30 := Nat.pow_le_pow_right (by omega) hc30
  have hzero := zeroed_content (α := α) (2 ^ c)
  refine ⟨_, by simp only [h1, h2, not_true, if_false]; rfl, ?_, ?_⟩
  · refine ⟨⟨c, rfl⟩, hge, Nat.le_refl _, ⟨c, rfl⟩, hle, rfl, rfl, rfl, ?_, Nat.zero_le _,
      zeroed_ordered _⟩
    exact (congrArg Multiset.card hzero).symm
  · exact hzero

theorem hashmapNew_valid [Inhabited α] (hcap : cap ≤ 2 ^ 30)
    (hnew : hashmapNew mallocs cap = .ok (some map)) : map.Valid ∧ map.items = 0 := by
  by_cases hm : mallocs.map = true ∧ mallocs.buckets = true
  · obtain ⟨map', he, hvalid, hzero⟩ := hashmapNew_some α hcap hm.1 hm.2
    rw [he] at hnew
    cases hnew
    exact ⟨hvalid, hzero⟩
  · rw [hashmapNew_none hcap hm] at hnew
    cases hnew

namespace Hashmap.Valid

theorem pos (hv : map.Valid) : 16 ≤ map.nbuckets := hv.cap_ge.trans hv.cap_le

theorem and_mask (hv : map.Valid) (x : Nat) : x &&& map.mask = x % map.nbuckets :=
  RobinHood.and_mask hv.size_pow hv.mask_eq x

/-- The table is never full. -/
theorem card_lt (hv : map.Valid) : map.items.card < map.nbuckets := by
  have hge := hv.pos
  have hle := hv.count_le
  rw [hv.count_eq, hv.growat_eq, growAt] at hle
  omega

end Hashmap.Valid

/-! ### resize -/

theorem apart_never (T : Multiset (Nat × α)) : Apart (fun _ _ => false) T := fun _ _ _ => rfl

/-- An entry at the start of its way through a table that is not full. -/
theorem Carried.start {buckets : Nat → Bucket α} (ho : Ordered n buckets)
    (hcard : (content n buckets).card < n) (hsmall : (content n buckets).card + 1 < dibSize)
    (x : Nat × α) : Carried n (x.1 % n) buckets ⟨x.1, 1, x.2⟩ (content n buckets + {x}) where
  ordered := ho
  lt := Nat.mod_lt _ (by omega)
  taken := Nat.one_pos
  home := rfl
  pred _ _ _ := Nat.le_add_left 1 _
  total := rfl
  small := by
    rw [Multiset.card_add, Multiset.card_singleton]
    exact hsmall

theorem moveAll_spec (hmask : ∀ x, x &&& mask = x % n) {old buckets : Nat → Bucket α}
    {l : List Nat} (ho : Ordered n buckets)
    (hT : content n buckets + (l.map fun i => (old i).cell).sum = T) (hcard : T.card < n)
    (hsmall : T.card < dibSize) : ∃ buckets', moveAll mask n old l buckets = .ok buckets' ∧
      Ordered n buckets' ∧ content n buckets' = T := by
  induction l generalizing buckets with
  | nil =>
    rw [List.map_nil, List.sum_nil, add_zero] at hT
    exact ⟨buckets, rfl, ho, hT⟩
  | cons i l ih =>
    rw [List.map_cons, List.sum_cons] at hT
    rw [moveAll]
    by_cases h0 : (old i).dib = 0
    · rw [Bucket.cell_empty h0, zero_add] at hT
      simp only [h0, if_true]
      exact ih ho hT
    · have hpos : 0 < (old i).dib := by omega
      rw [Bucket.cell_taken hpos, ← add_assoc] at hT
      have hle := congrArg Multiset.card hT
      rw [Multiset.card_add, Multiset.card_add, Multiset.card_singleton] at hle
      have hstart := Carried.start ho (by omega) (by omega) (old i).pair
      obtain ⟨buckets', hloop, ho', hT'⟩ := placeLoop_placed hmask (apart_never _) hstart
        (EmptyAhead.of_card (by omega) hstart.lt)
      simp only [h0, if_false, hmask]
      have hloop : placeLoop (fun _ _ => false) mask n buckets
          ⟨(old i).hash, 1, (old i).item⟩ ((old i).hash % n) = .ok (none, buckets') := hloop
      rw [hloop]
      exact ih ho' (by rw [hT']; exact hT)

theorem resize_failed [Inhabited α] (hcap : cap ≤ 2 ^ 30)
    (hm : ¬ (mallocs.map = true ∧ mallocs.buckets = true)) :
    resize mallocs map cap = .ok (false, map) := by
  rw [resize, hashmapNew_none hcap hm]

/-- Another size changes nothing but the sizes. -/
theorem resize_ok [Inhabited α] (hv : map.Valid) (hpow : ∃ c, cap = 2 ^ c) (hge : map.cap ≤ cap)
    (hle : cap ≤ 2 ^ 30) (hgrow : map.count ≤ growAt cap) (hsmall : map.count < dibSize)
    (h1 : mallocs.map = true) (h2 : mallocs.buckets = true) :
    ∃ map', resize mallocs map cap = .ok (true, map') ∧ map'.Valid ∧ map'.items = map.items ∧
      map'.nbuckets = cap ∧ map'.oom = map.oom := by
  obtain ⟨c, rfl⟩ := hpow
  have h16 : 16 ≤ 2 ^ c := hv.cap_ge.trans hge
  have hcount := hv.count_eq
  have hcard : map.items.card < 2 ^ c := by
    rw [growAt] at hgrow
    omega
  have hsum : content (2 ^ c) (zeroed : Nat → Bucket α) +
      ((List.range map.nbuckets).map fun i => (map.buckets i).cell).sum = map.items := by
    rw [zeroed_content, zero_add]
    rfl
  obtain ⟨buckets, hmove, hordered, hitems⟩ := moveAll_spec (RobinHood.and_mask ⟨c, rfl⟩ rfl)
    (zeroed_ordered (2 ^ c)) hsum hcard (by omega)
  refine ⟨{ map with
    buckets
    nbuckets := 2 ^ c
    mask := 2 ^ c - 1
    growat := growAt (2 ^ c)
    shrinkat := shrinkAt (2 ^ c) }, ?_, ?_, hitems, rfl, rfl⟩
  · rw [resize, hashmapNew, initialCap_pow h16 hle]
    simp only [h1, h2, not_true, if_false, hmove]
  · refine ⟨hv.cap_pow, hv.cap_ge, hge, ⟨c, rfl⟩, hle, rfl, rfl, rfl, ?_, hgrow, hordered⟩
    rw [hcount]
    exact (congrArg Multiset.card hitems).symm

/-! ### hashmap_get -/

theorem same_iff {b : Bucket α} :
    same cb (getHash cb key) key b = true ↔ Match cb (cb.entry key) b.pair := by
  simp only [same, Match, Bucket.pair, Callbacks.entry, decide_eq_true_eq]

/-- The loops stop at a bucket of the key, if there is one. -/
theorem Hashmap.Valid.firstHit (hv : map.Valid) {x : Nat × α} (hx : x ∈ map.items)
    (hm : Match cb (cb.entry key) x) :
    ∃ t, FirstHit (same cb (getHash cb key) key) map.nbuckets (getHash cb key) t map.buckets := by
  obtain ⟨i, hi, hpos, rfl⟩ := mem_content.mp hx
  exact hv.ordered.firstHit hv.card_lt hi hpos (congrArg (· % map.nbuckets) hm.1)
    (same_iff.mpr hm)

theorem FirstHit.mem {t : Nat} {hit : Bucket α → Bool} {h : Nat}
    (hf : FirstHit hit map.nbuckets h t map.buckets) :
    (h + t) % map.nbuckets < map.nbuckets ∧
      0 < (map.buckets ((h + t) % map.nbuckets)).dib ∧
      (map.buckets ((h + t) % map.nbuckets)).pair ∈ map.items := by
  have hn := hf.lt
  have hlt : (h + t) % map.nbuckets < map.nbuckets := Nat.mod_lt _ (by omega)
  have hpos := hf.rich t (Nat.le_refl t)
  exact ⟨hlt, by omega, mem_content.mpr ⟨_, hlt, by omega, rfl⟩⟩

theorem Hashmap.Valid.find_hit (hv : map.Valid) {t : Nat}
    (hf : FirstHit (same cb (getHash cb key) key) map.nbuckets (getHash cb key) t map.buckets) :
    findLoop cb map.buckets map.mask (getHash cb key) key map.nbuckets
      (getHash cb key &&& map.mask) = .ok (some ((getHash cb key + t) % map.nbuckets)) := by
  have hn := hf.lt
  rw [hv.and_mask]
  exact findLoop_hit hv.and_mask hf (Nat.zero_le t) (by omega)

theorem Hashmap.Valid.find_miss (hv : map.Valid)
    (hm : ∀ x ∈ map.items, ¬ Match cb (cb.entry key) x) :
    findLoop cb map.buckets map.mask (getHash cb key) key map.nbuckets
      (getHash cb key &&& map.mask) = .ok none := by
  have hpos := hv.pos
  have hlt : getHash cb key % map.nbuckets < map.nbuckets := Nat.mod_lt _ (by omega)
  rw [hv.and_mask]
  refine findLoop_miss hv.and_mask (fun j hj hpos => ?_) hlt (EmptyAhead.of_card hv.card_lt hlt)
  rw [Bool.eq_false_iff]
  intro hsame
  exact hm _ (mem_content.mpr ⟨j, hj, hpos, rfl⟩) (same_iff.mp hsame)

theorem hashmapGet_hit (hv : map.Valid) {x : Nat × α} (hx : x ∈ map.items)
    (hm : Match cb (cb.entry key) x) :
    ∃ y ∈ map.items, Match cb (cb.entry key) y ∧ hashmapGet cb map key = .ok (some y.2) := by
  obtain ⟨t, hf⟩ := hv.firstHit hx hm
  obtain ⟨-, -, hmem⟩ := hf.mem
  refine ⟨_, hmem, same_iff.mp hf.here, ?_⟩
  rw [hashmapGet, hv.find_hit hf]
  rfl

theorem hashmapGet_miss (hv : map.Valid) (hm : ∀ x ∈ map.items, ¬ Match cb (cb.entry key) x) :
    hashmapGet cb map key = .ok none := by
  rw [hashmapGet, hv.find_miss hm]

/-! ### hashmap_set -/

/-- The entry finds its bucket `i` first. -/
theorem Hashmap.Valid.place_hit (hv : map.Valid) (hsmall : map.count < dibSize) {x : Nat × α}
    (hx : x ∈ map.items) (hm : Match cb (cb.entry item) x) :
    ∃ i < map.nbuckets, 0 < (map.buckets i).dib ∧ Match cb (cb.entry item) (map.buckets i).pair ∧
      placeLoop (fun entry bucket => same cb entry.hash entry.item bucket) map.mask map.nbuckets
        map.buckets ⟨getHash cb item, 1, item⟩ (getHash cb item &&& map.mask) =
      .ok (some (map.buckets i).item,
        Function.update map.buckets i { map.buckets i with item }) := by
  obtain ⟨t, hf⟩ := hv.firstHit hx hm
  obtain ⟨hlt, hpos, -⟩ := hf.mem
  obtain ⟨e, he, h0⟩ := exists_empty hv.card_lt
  have hdib : ∀ j < map.nbuckets, (map.buckets j).dib < dibSize := by
    intro j hj
    have hle : (map.buckets j).dib ≤ map.items.card := hv.ordered.dib_le hj he h0
    rw [← hv.count_eq] at hle
    omega
  have hn := hf.lt
  refine ⟨_, hlt, hpos, same_iff.mp hf.here, ?_⟩
  rw [hv.and_mask]
  exact placeLoop_hit ⟨getHash cb item, 1, item⟩ hv.and_mask (fun _ _ => rfl) hf hdib
    (Nat.zero_le t) (by omega)

/-- The item that was found is replaced. -/
theorem insert_hit (hv : map.Valid) (hsmall : map.count < dibSize) {x : Nat × α}
    (hx : x ∈ map.items) (hm : Match cb (cb.entry item) x) :
    ∃ y ∈ map.items, Match cb (cb.entry item) y ∧ ∃ map', insert cb map item = .ok (some y.2, map') ∧
      map'.Valid ∧ map'.items + {y} = map.items + {cb.entry item} ∧ map'.oom = map.oom := by
  obtain ⟨i, hi, hpos, hmatch, hloop⟩ := hv.place_hit hsmall hx hm
  have hitems : content map.nbuckets (Function.update map.buckets i { map.buckets i with item }) +
      {(map.buckets i).pair} = map.items + {cb.entry item} := by
    have hu := content_update map.buckets hi
      ⟨(map.buckets i).hash, (map.buckets i).dib, item⟩
    have hcell : Bucket.cell ⟨(map.buckets i).hash, (map.buckets i).dib, item⟩ =
        {cb.entry item} := by
      refine (Bucket.cell_taken (by exact hpos)).trans ?_
      exact congrArg (fun h => ({(h, item)} : Multiset (Nat × α))) hmatch.1
    rw [Bucket.cell_taken hpos, hcell] at hu
    exact hu
  have hcard := congrArg Multiset.card hitems
  rw [Multiset.card_add, Multiset.card_add, Multiset.card_singleton, Multiset.card_singleton,
    ← hv.count_eq] at hcard
  refine ⟨_, mem_content.mpr ⟨i, hi, hpos, rfl⟩, hmatch,
    { map with buckets := Function.update map.buckets i { map.buckets i with item } },
    ?_, ?_, hitems, rfl⟩
  · simp only [insert, hloop]
    rfl
  · exact { hv with
      count_eq := (Nat.add_right_cancel hcard).symm
      ordered := hv.ordered.replaceItem item }

/-- The start of an item that is put into the table. -/
theorem Hashmap.Valid.start (hv : map.Valid) (hsmall : map.count + 1 < dibSize) (x : Nat × α) :
    Carried map.nbuckets (x.1 % map.nbuckets) map.buckets ⟨x.1, 1, x.2⟩ (map.items + {x}) := by
  refine Carried.start hv.ordered hv.card_lt ?_ x
  change map.items.card + 1 < dibSize
  rw [← hv.count_eq]
  exact hsmall

theorem apart_of_separate (hsep : Separate cb T) :
    Apart (fun entry bucket => same cb entry.hash entry.item bucket) T := by
  intro x y hle
  have hno := hsep _ _ hle
  rw [Bool.eq_false_iff]
  intro hsame
  refine hno ?_
  simpa [same, Match, Bucket.pair] using hsame

/-- Whatever the callbacks say, an item is added, or replaces another one if they take some
item for another. -/
theorem insert_ends (cb : Callbacks α) (item : α) (hv : map.Valid) (hgrow : map.count < map.growat)
    (hsmall : map.count + 1 < dibSize) :
    ∃ old map', insert cb map item = .ok (old, map') ∧ map'.Valid ∧ map'.oom = map.oom ∧
      (old = none ∧ map'.items = map.items + {cb.entry item} ∨
        ¬ Separate cb (map.items + {cb.entry item})) := by
  have hstart := hv.start hsmall (cb.entry item)
  obtain ⟨old, buckets, hloop, hordered, hcases⟩ :=
    placeLoop_ends (fun entry bucket => same cb entry.hash entry.item bucket) hv.and_mask hstart
      (EmptyAhead.of_card hv.card_lt hstart.lt)
  have hloop : placeLoop (fun entry bucket => same cb entry.hash entry.item bucket) map.mask
      map.nbuckets map.buckets ⟨getHash cb item, 1, item⟩ (getHash cb item &&& map.mask) =
      .ok (old, buckets) := by
    rw [hv.and_mask]
    exact hloop
  have hcount := hv.count_eq
  rcases hcases with ⟨rfl, hcontent⟩ | ⟨⟨x, rfl⟩, hcard, hnot⟩
  · refine ⟨none, { map with buckets, count := map.count + 1 }, ?_, ?_, rfl,
      Or.inl ⟨rfl, hcontent⟩⟩
    · simp only [insert, hloop]
    · refine { hv with count_eq := ?_, count_le := hgrow, ordered := hordered }
      change map.count + 1 = (content map.nbuckets buckets).card
      rw [hcontent, Multiset.card_add, Multiset.card_singleton, hcount]
  · refine ⟨some x, { map with buckets }, ?_, ?_, rfl,
      Or.inr fun hsep => hnot (apart_of_separate hsep)⟩
    · simp only [insert, hloop]
    · refine { hv with count_eq := ?_, ordered := hordered }
      change map.count = (content map.nbuckets buckets).card
      rw [Multiset.card_add, Multiset.card_singleton] at hcard
      omega

/-- An item that is taken for none of the others is added. -/
theorem insert_miss (hv : map.Valid) (hgrow : map.count < map.growat)
    (hsmall : map.count + 1 < dibSize) (hsep : Separate cb (map.items + {cb.entry item})) :
    ∃ map', insert cb map item = .ok (none, map') ∧ map'.Valid ∧
      map'.items = map.items + {cb.entry item} ∧ map'.oom = map.oom := by
  obtain ⟨old, map', hinsert, hvalid, hoom, ⟨rfl, hitems⟩ | hnot⟩ :=
    insert_ends cb item hv hgrow hsmall
  · exact ⟨map', hinsert, hvalid, hitems, hoom⟩
  · exact absurd hsep hnot

/-- The table has to grow and cannot. -/
def GrowthFails (mallocs : Mallocs) (map : Hashmap α) : Prop :=
  map.count = map.growat ∧ ¬ (mallocs.map = true ∧ mallocs.buckets = true)

instance (mallocs : Mallocs) (map : Hashmap α) : Decidable (GrowthFails mallocs map) :=
  inferInstanceAs (Decidable (_ ∧ _))

/-- Room for the item, if the growth does not fail. -/
theorem hashmapSet_grown [Inhabited α] (cb : Callbacks α) (item : α) (hv : map.Valid)
    (hsmall : map.count + 1 < dibSize) (hg : ¬ GrowthFails mallocs map) :
    ∃ grown : Hashmap α, hashmapSet cb mallocs map item = insert cb grown item ∧ grown.Valid ∧
      grown.items = map.items ∧ grown.count < grown.growat ∧ grown.oom = false := by
  have hv' : ({ map with oom := false } : Hashmap α).Valid := { hv with }
  by_cases hfull : map.count = map.growat
  · have hm : mallocs.map = true ∧ mallocs.buckets = true := by
      by_contra hno
      exact hg ⟨hfull, hno⟩
    obtain ⟨c, hc⟩ := hv.size_pow
    have hpos := hv.pos
    have hgrowat := hv.growat_eq
    unfold growAt at hgrowat
    have hbig : map.nbuckets * 2 ≤ 2 ^ 30 := by
      unfold dibSize at hsmall
      omega
    have hroom : map.count ≤ growAt (map.nbuckets * 2) := by
      unfold growAt
      omega
    obtain ⟨grown, hresize, hvalid, hitems, hsize, hoom⟩ := resize_ok hv'
      ⟨c + 1, by rw [hc, Nat.pow_succ]⟩ (hv.cap_le.trans (by omega)) hbig hroom
      (Nat.lt_of_succ_lt hsmall) hm.1 hm.2
    refine ⟨grown, ?_, hvalid, hitems, ?_, hoom⟩
    · simp only [hashmapSet, hfull, if_true]
      simp only [hfull] at hresize
      rw [hresize]
    · have hcount := hvalid.count_eq
      rw [hitems] at hcount
      have hcount' : grown.count = map.count := hcount.trans hv.count_eq.symm
      rw [hvalid.growat_eq, hsize, hcount', growAt]
      omega
  · refine ⟨{ map with oom := false }, ?_, hv', rfl, ?_, rfl⟩
    · simp only [hashmapSet, hfull, if_false]
    · have hle := hv.count_le
      change map.count < map.growat
      omega

theorem hashmapSet_oom [Inhabited α] (hv : map.Valid) (hsmall : map.count < dibSize)
    (hg : GrowthFails mallocs map) :
    hashmapSet cb mallocs map item = .ok (none, { map with oom := true }) := by
  have hbig : map.nbuckets * 2 ≤ 2 ^ 30 := by
    have hgrowat := hv.growat_eq
    have hfull := hg.1
    unfold growAt at hgrowat
    unfold dibSize at hsmall
    omega
  simp only [hashmapSet, hg.1, if_true]
  rw [resize_failed hbig hg.2]

/-! ### hashmap_delete -/

/-- Shrinking, or not, changes nothing but the sizes. -/
theorem shrink_ok [Inhabited α] (mallocs : Mallocs) (item : α) (hv : map.Valid)
    (hsmall : map.count < dibSize) :
    ∃ map', (if map.nbuckets > map.cap ∧ map.count ≤ map.shrinkat then
          match resize mallocs map (map.nbuckets / 2) with
          | .error fault => .error fault
          | .ok (_, map) => .ok (some item, map)
        else Except.ok (some item, map)) = .ok (some item, map') ∧
      map'.Valid ∧ map'.items = map.items ∧ map'.oom = map.oom := by
  by_cases hs : map.nbuckets > map.cap ∧ map.count ≤ map.shrinkat
  · rw [if_pos hs]
    obtain ⟨hlt, hle⟩ := hs
    obtain ⟨c, hc⟩ := hv.size_pow
    obtain ⟨d, hd⟩ := hv.cap_pow
    have hdc : d < c := by
      rw [hc, hd] at hlt
      exact (Nat.pow_lt_pow_iff_right (by omega)).mp hlt
    have hhalf : map.nbuckets / 2 = 2 ^ (c - 1) := by
      rw [hc, ← Nat.pow_div (by omega) (by omega), Nat.pow_one]
    have hcap : map.cap ≤ map.nbuckets / 2 := by
      rw [hhalf, hd]
      exact Nat.pow_le_pow_right (by omega) (by omega)
    have hbig : map.nbuckets / 2 ≤ 2 ^ 30 := by
      have := hv.size_le
      omega
    by_cases hm : mallocs.map = true ∧ mallocs.buckets = true
    · have hroom : map.count ≤ growAt (map.nbuckets / 2) := by
        have hpos := hv.pos
        rw [hv.shrinkat_eq, shrinkAt] at hle
        unfold growAt
        omega
      obtain ⟨map', hresize, hvalid, hitems, -, hoom⟩ :=
        resize_ok hv ⟨_, hhalf⟩ hcap hbig hroom hsmall hm.1 hm.2
      rw [hresize]
      exact ⟨map', rfl, hvalid, hitems, hoom⟩
    · rw [resize_failed hbig hm]
      exact ⟨map, rfl, hv, rfl, rfl⟩
  · exact ⟨map, if_neg hs, hv, rfl, rfl⟩

/-- The item that was found is taken out. -/
theorem hashmapDelete_hit [Inhabited α] (mallocs : Mallocs) (hv : map.Valid)
    (hsmall : map.count < dibSize) {x : Nat × α} (hx : x ∈ map.items)
    (hm : Match cb (cb.entry key) x) :
    ∃ y ∈ map.items, Match cb (cb.entry key) y ∧
      ∃ map', hashmapDelete cb mallocs map key = .ok (some y.2, map') ∧ map'.Valid ∧
        map'.items + {y} = map.items ∧ map'.oom = false := by
  obtain ⟨t, hf⟩ := hv.firstHit hx hm
  obtain ⟨hlt, hpos, hmem⟩ := hf.mem
  have hfind := hv.find_hit hf
  have hmatch := same_iff.mp hf.here
  generalize (getHash cb key + t) % map.nbuckets = i at hlt hpos hmem hfind hmatch
  have hn : 1 < map.nbuckets := by
    have := hv.pos
    omega
  obtain ⟨buckets, hshift, hordered, hitems⟩ :=
    hv.ordered.takeOut hv.and_mask hn hlt hpos hv.card_lt
  have hcard := congrArg Multiset.card hitems
  rw [Multiset.card_add, Multiset.card_singleton] at hcard
  have hcount := hv.count_eq
  have hvalid : ({ map with oom := false, buckets, count := map.count - 1 } : Hashmap α).Valid := by
    refine { hv with count_eq := ?_, count_le := ?_, ordered := hordered }
    · change map.count - 1 = (content map.nbuckets buckets).card
      rw [hcount]
      change (content map.nbuckets map.buckets).card - 1 = _
      omega
    · exact (Nat.sub_le _ _).trans hv.count_le
  obtain ⟨map', hresize, hvalid', hitems', hoom⟩ := shrink_ok mallocs (map.buckets i).item
    hvalid (Nat.lt_of_le_of_lt (Nat.sub_le _ _) hsmall)
  refine ⟨_, hmem, hmatch, map', ?_, hvalid', ?_, hoom⟩
  · simp only [hashmapDelete, hfind, hshift]
    exact hresize
  · rw [hitems']
    exact hitems

theorem hashmapDelete_miss [Inhabited α] (hv : map.Valid)
    (hm : ∀ x ∈ map.items, ¬ Match cb (cb.entry key) x) :
    hashmapDelete cb mallocs map key = .ok (none, { map with oom := false }) := by
  simp only [hashmapDelete, hv.find_miss hm]

/-! ### Any callbacks -/

theorem hashmapGet_ends (cb : Callbacks α) (key : α) (hv : map.Valid) :
    ∃ found, hashmapGet cb map key = .ok found := by
  by_cases hex : ∃ x ∈ map.items, Match cb (cb.entry key) x
  · obtain ⟨x, hx, hm⟩ := hex
    obtain ⟨y, -, -, he⟩ := hashmapGet_hit hv hx hm
    exact ⟨_, he⟩
  · exact ⟨none, hashmapGet_miss hv fun x hx hm => hex ⟨x, hx, hm⟩⟩

theorem hashmapSet_ends [Inhabited α] (cb : Callbacks α) (mallocs : Mallocs) (item : α)
    (hv : map.Valid) (hsmall : map.count + 1 < dibSize) :
    ∃ old map', hashmapSet cb mallocs map item = .ok (old, map') ∧ map'.Valid := by
  by_cases hg : GrowthFails mallocs map
  · exact ⟨none, _, hashmapSet_oom hv (Nat.lt_of_succ_lt hsmall) hg, { hv with }⟩
  · obtain ⟨grown, hset, hvalid, hitems, hroom, -⟩ := hashmapSet_grown cb item hv hsmall hg
    have hcount : grown.count = map.count := by
      rw [hvalid.count_eq, hitems, hv.count_eq]
    obtain ⟨old, map', hinsert, hvalid', -⟩ := insert_ends cb item hvalid hroom (by omega)
    exact ⟨old, map', hset.trans hinsert, hvalid'⟩

theorem hashmapDelete_ends [Inhabited α] (cb : Callbacks α) (mallocs : Mallocs) (key : α)
    (hv : map.Valid) (hsmall : map.count < dibSize) :
    ∃ found map', hashmapDelete cb mallocs map key = .ok (found, map') ∧ map'.Valid := by
  by_cases hex : ∃ x ∈ map.items, Match cb (cb.entry key) x
  · obtain ⟨x, hx, hm⟩ := hex
    obtain ⟨y, -, -, map', he, hvalid, -⟩ := hashmapDelete_hit mallocs hv hsmall hx hm
    exact ⟨_, map', he, hvalid⟩
  · exact ⟨none, _, hashmapDelete_miss hv fun x hx hm => hex ⟨x, hx, hm⟩, { hv with }⟩

/-! ### hashmap_clear -/

theorem hashmapClear_ok [Inhabited α] (hv : map.Valid) (updateCap malloced : Bool) :
    ∃ map', hashmapClear updateCap malloced map = .ok map' ∧ map'.Valid ∧ map'.items = 0 := by
  obtain ⟨c, hc, hle, hge⟩ : ∃ c, (if updateCap then map.nbuckets else map.cap) = 2 ^ c ∧
      2 ^ c ≤ map.nbuckets ∧ 16 ≤ 2 ^ c := by
    cases updateCap with
    | true =>
      obtain ⟨c, hc⟩ := hv.size_pow
      exact ⟨c, hc, Nat.le_of_eq hc.symm, hc ▸ hv.pos⟩
    | false =>
      obtain ⟨c, hc⟩ := hv.cap_pow
      exact ⟨c, hc, hc ▸ hv.cap_le, hc ▸ hv.cap_ge⟩
  have hzero := zeroed_content (α := α) (2 ^ c)
  have hno : ¬ (map.nbuckets < 2 ^ c ∧ ¬ malloced = true) := by omega
  refine ⟨_, by simp only [hashmapClear, hc, hno, if_false]; rfl, ?_, ?_⟩
  · refine ⟨⟨c, rfl⟩, hge, Nat.le_refl _, ⟨c, rfl⟩, hle.trans hv.size_le, rfl, rfl, rfl, ?_,
      Nat.zero_le _, zeroed_ordered _⟩
    exact (congrArg Multiset.card hzero).symm
  · exact hzero

end CacheServer.RobinHood
