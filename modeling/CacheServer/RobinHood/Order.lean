import CacheServer.Library.Cycle
import CacheServer.Model.RobinHood

/-!
# The order of the buckets

An entry lies `dib - 1` buckets after its home, and `dib` grows by one at most
from each bucket to the next: a poor entry is never behind a rich one. So every
bucket between the home of an entry and the entry is taken, and the loops of
hashmap.c find it before they find an empty bucket or displace anything.
-/

namespace CacheServer.RobinHood

variable {α : Type} {n mask fuel i j k s t h hash : Nat} {buckets : Nat → Bucket α}
  {entry bucket : Bucket α} {test : Bucket α → Bucket α → Bool} {hit : Bucket α → Bool}
  {T : Multiset (Nat × α)}

def Bucket.pair (b : Bucket α) : Nat × α := (b.hash, b.item)

def Bucket.cell (b : Bucket α) : Multiset (Nat × α) := if b.dib = 0 then 0 else {b.pair}

/-- What the buckets hold, with the stored hashes. -/
def content (n : Nat) (buckets : Nat → Bucket α) : Multiset (Nat × α) :=
  gathered Bucket.cell n buckets

structure Ordered (n : Nat) (buckets : Nat → Bucket α) : Prop where
  home : ∀ i < n, 0 < (buckets i).dib → ((buckets i).hash + ((buckets i).dib - 1)) % n = i
  climbs : Climbs n fun i => (buckets i).dib

/-! ### The content -/

theorem Bucket.cell_empty (h : bucket.dib = 0) : bucket.cell = 0 := if_pos h

theorem Bucket.cell_taken (h : 0 < bucket.dib) : bucket.cell = {bucket.pair} :=
  if_neg (Nat.ne_of_gt h)

theorem mem_content {x : Nat × α} :
    x ∈ content n buckets ↔ ∃ i < n, 0 < (buckets i).dib ∧ (buckets i).pair = x := by
  unfold content
  rw [mem_gathered]
  constructor
  · rintro ⟨i, hi, hx⟩
    by_cases h0 : (buckets i).dib = 0
    · rw [Bucket.cell_empty h0] at hx
      exact absurd hx (Multiset.notMem_zero x)
    · have hpos : 0 < (buckets i).dib := by omega
      rw [Bucket.cell_taken hpos, Multiset.mem_singleton] at hx
      exact ⟨i, hi, hpos, hx.symm⟩
  · rintro ⟨i, hi, hpos, rfl⟩
    refine ⟨i, hi, ?_⟩
    rw [Bucket.cell_taken hpos]
    exact Multiset.mem_singleton_self _

theorem pair_le_content (hi : i < n) (hpos : 0 < (buckets i).dib) :
    {(buckets i).pair} ≤ content n buckets := by
  have hle := cell_le_gathered Bucket.cell buckets hi
  rw [Bucket.cell_taken hpos] at hle
  exact hle

theorem card_content : (content n buckets).card =
    ((Finset.range n).filter fun i => 0 < (buckets i).dib).card := by
  unfold content gathered
  rw [Multiset.card_sum, Finset.card_eq_sum_ones, Finset.sum_filter]
  refine Finset.sum_congr rfl fun i _ => ?_
  by_cases h0 : (buckets i).dib = 0
  · rw [Bucket.cell_empty h0, if_neg (by omega)]
    rfl
  · have hpos : 0 < (buckets i).dib := by omega
    rw [Bucket.cell_taken hpos, if_pos hpos]
    exact Multiset.card_singleton _

theorem exists_empty (h : (content n buckets).card < n) : ∃ i < n, (buckets i).dib = 0 := by
  by_contra hall
  push Not at hall
  rw [card_content, Finset.filter_true_of_mem, Finset.card_range] at h
  · omega
  · intro i hi
    have := hall i (Finset.mem_range.mp hi)
    omega

theorem content_update (buckets : Nat → Bucket α) (hi : i < n) (b : Bucket α) :
    content n (Function.update buckets i b) + (buckets i).cell = content n buckets + b.cell :=
  gathered_update Bucket.cell buckets hi b

theorem content_eq_zero : content n buckets = 0 ↔ ∀ i < n, (buckets i).dib = 0 := by
  rw [Multiset.eq_zero_iff_forall_notMem]
  constructor
  · intro hall i hi
    by_contra h0
    exact hall _ (mem_content.mpr ⟨i, hi, by omega, rfl⟩)
  · intro hall x hx
    obtain ⟨i, hi, hpos, -⟩ := mem_content.mp hx
    have := hall i hi
    omega

/-! ### The order -/

theorem dib_update (i : Nat) (b : Bucket α) :
    (fun j => (Function.update buckets i b j).dib) =
      Function.update (fun j => (buckets j).dib) i b.dib := by
  funext j
  by_cases h : j = i
  · subst h
    rw [Function.update_self, Function.update_self]
  · rw [Function.update_of_ne h, Function.update_of_ne h]

theorem home_succ (h : (hash + k) % n = i) : (hash + (k + 1)) % n = (i + 1) % n := by
  rw [← h, Nat.mod_add_mod, Nat.add_assoc]

theorem home_pred (hi : i < n) (h : (hash + (k + 1)) % n = (i + 1) % n) :
    (hash + k) % n = i := by
  have hmod : Nat.ModEq n (hash + k) i := Nat.ModEq.add_right_cancel' 1 h
  rw [hmod, Nat.mod_eq_of_lt hi]

namespace Ordered

theorem dib_le (ho : Ordered n buckets) (hi : i < n) (hj : j < n) (h0 : (buckets j).dib = 0) :
    (buckets i).dib ≤ (content n buckets).card := by
  rw [card_content]
  exact ho.climbs.le_card hi hj h0

/-- A bucket takes an entry that is at home there and at least as poor as what it held. -/
theorem place (ho : Ordered n buckets) (hi : i < n)
    (hhome : (entry.hash + (entry.dib - 1)) % n = i)
    (hpred : ∀ j < n, (j + 1) % n = i → entry.dib ≤ (buckets j).dib + 1)
    (hle : (buckets i).dib ≤ entry.dib) : Ordered n (Function.update buckets i entry) where
  home j hj hpos := by
    by_cases hji : j = i
    · subst hji
      rw [Function.update_self]
      exact hhome
    · rw [Function.update_of_ne hji] at hpos ⊢
      exact ho.home j hj hpos
  climbs := by
    rw [dib_update]
    exact ho.climbs.raise hi hpred hle

theorem congr {buckets' : Nat → Bucket α} (ho : Ordered n buckets)
    (hhash : ∀ i < n, (buckets' i).hash = (buckets i).hash)
    (hdib : ∀ i < n, (buckets' i).dib = (buckets i).dib) : Ordered n buckets' where
  home i hi hpos := by
    rw [hdib i hi] at hpos ⊢
    rw [hhash i hi]
    exact ho.home i hi hpos
  climbs := ho.climbs.congr hdib

theorem replaceItem (ho : Ordered n buckets) (item : α) :
    Ordered n (Function.update buckets i { buckets i with item }) := by
  refine ho.congr (fun j _ => ?_) (fun j _ => ?_)
  · by_cases hji : j = i
    · subst hji
      rw [Function.update_self]
    · rw [Function.update_of_ne hji]
  · by_cases hji : j = i
    · subst hji
      rw [Function.update_self]
    · rw [Function.update_of_ne hji]

end Ordered

theorem zeroed_ordered [Inhabited α] (n : Nat) : Ordered n (zeroed : Nat → Bucket α) where
  home _ _ hpos := absurd hpos (Nat.lt_irrefl 0)
  climbs _ _ := Nat.zero_le _

theorem zeroed_content [Inhabited α] (n : Nat) : content n (zeroed : Nat → Bucket α) = 0 :=
  content_eq_zero.mpr fun _ _ => rfl

/-! ### Placing an entry -/

/-- No two entries of the collection pass the test. -/
def Apart (test : Bucket α → Bucket α → Bool) (T : Multiset (Nat × α)) : Prop :=
  ∀ x y : Bucket α, {x.pair, y.pair} ≤ T → test x y = false

/-- The loop finds an empty bucket within `fuel` rounds. -/
def EmptyAhead (n fuel i : Nat) (buckets : Nat → Bucket α) : Prop :=
  ∃ k < fuel, (buckets ((i + k) % n)).dib = 0

theorem EmptyAhead.succ (he : EmptyAhead n (fuel + 1) i buckets) (hi : i < n)
    (hpos : 0 < (buckets i).dib) (b : Bucket α) :
    EmptyAhead n fuel ((i + 1) % n) (Function.update buckets i b) ∧
      EmptyAhead n fuel ((i + 1) % n) buckets := by
  obtain ⟨k, hk, h0⟩ := he
  cases k with
  | zero =>
    rw [Nat.add_zero, Nat.mod_eq_of_lt hi] at h0
    omega
  | succ k =>
    rw [← ahead_succ] at h0
    refine ⟨⟨k, by omega, ?_⟩, k, by omega, h0⟩
    rw [Function.update_of_ne]
    · exact h0
    · intro heq
      rw [heq] at h0
      omega

theorem EmptyAhead.of_card (h : (content n buckets).card < n) (hi : i < n) :
    EmptyAhead n n i buckets := by
  obtain ⟨j, hj, h0⟩ := exists_empty h
  obtain ⟨k, hk, he⟩ := exists_ahead hi hj
  exact ⟨k, hk, by rw [he]; exact h0⟩

/-- What the loop keeps about the entry that it carries to bucket `i`. -/
structure Carried (n i : Nat) (buckets : Nat → Bucket α) (entry : Bucket α)
    (T : Multiset (Nat × α)) : Prop where
  ordered : Ordered n buckets
  lt : i < n
  taken : 0 < entry.dib
  home : (entry.hash + (entry.dib - 1)) % n = i
  pred : ∀ j < n, (j + 1) % n = i → entry.dib ≤ (buckets j).dib + 1
  total : content n buckets + {entry.pair} = T
  small : T.card < dibSize

namespace Carried

theorem bucket_dib_lt (hc : Carried n i buckets entry T) (he : EmptyAhead n fuel i buckets) :
    (buckets i).dib + 1 < dibSize := by
  obtain ⟨k, -, h0⟩ := he
  have hlt := hc.lt
  have hle := hc.ordered.dib_le hc.lt (Nat.mod_lt (i + k) (by omega)) h0
  have hcard := congrArg Multiset.card hc.total
  rw [Multiset.card_add, Multiset.card_singleton] at hcard
  have := hc.small
  omega

theorem place (hc : Carried n i buckets entry T) (hle : (buckets i).dib ≤ entry.dib) :
    Ordered n (Function.update buckets i entry) ∧
      content n (Function.update buckets i entry) + (buckets i).cell = T := by
  refine ⟨hc.ordered.place hc.lt hc.home hc.pred hle, ?_⟩
  rw [content_update buckets hc.lt, Bucket.cell_taken hc.taken]
  exact hc.total

theorem displace (hc : Carried n i buckets entry T) (hlt : (buckets i).dib < entry.dib)
    (hpos : 0 < (buckets i).dib) : Carried n ((i + 1) % n) (Function.update buckets i entry)
      { buckets i with dib := (buckets i).dib + 1 } T := by
  have hi := hc.lt
  obtain ⟨hordered, htotal⟩ := hc.place (Nat.le_of_lt hlt)
  rw [Bucket.cell_taken hpos] at htotal
  have hhome := hc.ordered.home i hi hpos
  refine ⟨hordered, Nat.mod_lt _ (by omega), Nat.succ_pos _, ?_, ?_, htotal, hc.small⟩
  · have hsucc := home_succ hhome
    rw [Nat.sub_add_cancel hpos] at hsucc
    exact hsucc
  · intro j hj he
    have hji := pred_unique hj hi he
    subst hji
    rw [Function.update_self]
    exact Nat.succ_le_succ (Nat.le_of_lt hlt)

theorem pass (hc : Carried n i buckets entry T) (hle : entry.dib ≤ (buckets i).dib) :
    Carried n ((i + 1) % n) buckets { entry with dib := entry.dib + 1 } T := by
  have hi := hc.lt
  have hpos := hc.taken
  refine ⟨hc.ordered, Nat.mod_lt _ (by omega), Nat.succ_pos _, ?_, ?_, hc.total, hc.small⟩
  · have hsucc := home_succ hc.home
    rw [Nat.sub_add_cancel hpos] at hsucc
    exact hsucc
  · intro j hj he
    have hji := pred_unique hj hi he
    subst hji
    exact Nat.succ_le_succ hle

end Carried

theorem Carried.replace (hc : Carried n i buckets entry T) (item : α)
    (hpos : 0 < (buckets i).dib) :
    (content n (Function.update buckets i { buckets i with item })).card + 1 = T.card := by
  have hcell : Bucket.cell ⟨(buckets i).hash, (buckets i).dib, item⟩ = {((buckets i).hash, item)} :=
    Bucket.cell_taken (by exact hpos)
  have hcard := congrArg Multiset.card
    (content_update buckets hc.lt ⟨(buckets i).hash, (buckets i).dib, item⟩)
  rw [Bucket.cell_taken hpos, hcell, Multiset.card_add, Multiset.card_add,
    Multiset.card_singleton, Multiset.card_singleton] at hcard
  rw [← hc.total, Multiset.card_add, Multiset.card_singleton]
  exact hcard

/-- The loop ends. It gives a bucket to the entry and to what that displaces, unless one of
them replaces an item that it passes the test with. -/
theorem placeLoop_ends (test : Bucket α → Bucket α → Bool) (hmask : ∀ x, x &&& mask = x % n)
    (hc : Carried n i buckets entry T) (he : EmptyAhead n fuel i buckets) :
    ∃ old buckets', placeLoop test mask fuel buckets entry i = .ok (old, buckets') ∧
      Ordered n buckets' ∧ (old = none ∧ content n buckets' = T ∨
        (∃ x, old = some x) ∧ (content n buckets').card + 1 = T.card ∧ ¬ Apart test T) := by
  induction fuel generalizing buckets entry i with
  | zero =>
    obtain ⟨k, hk, -⟩ := he
    omega
  | succ fuel ih =>
    rw [placeLoop]
    by_cases h0 : (buckets i).dib = 0
    · obtain ⟨hordered, htotal⟩ := hc.place (by omega)
      rw [Bucket.cell_empty h0, add_zero] at htotal
      exact ⟨_, _, if_pos h0, hordered, Or.inl ⟨rfl, htotal⟩⟩
    · have hpos : 0 < (buckets i).dib := by omega
      have hpair : {entry.pair, (buckets i).pair} ≤ T := by
        rw [← hc.total, Multiset.insert_eq_cons, ← Multiset.singleton_add, add_comm]
        exact Multiset.add_le_add_right (pair_le_content hc.lt hpos)
      have hdib := hc.bucket_dib_lt he
      have hahead := he.succ hc.lt hpos entry
      simp only [h0, if_false]
      cases htest : test entry (buckets i) with
      | true =>
        refine ⟨_, _, if_pos rfl, hc.ordered.replaceItem entry.item,
          Or.inr ⟨⟨_, rfl⟩, hc.replace entry.item hpos, fun hapart => ?_⟩⟩
        rw [hapart _ _ hpair] at htest
        cases htest
      | false =>
        simp only [hmask, if_false, Bool.false_eq_true]
        by_cases hlt : (buckets i).dib < entry.dib
        · simp only [hlt, if_true, Nat.mod_eq_of_lt hdib]
          exact ih (hc.displace hlt hpos) hahead.1
        · have hle : entry.dib ≤ (buckets i).dib := by omega
          have hsmall : entry.dib + 1 < dibSize := by omega
          simp only [hlt, if_false, Nat.mod_eq_of_lt hsmall]
          exact ih (hc.pass hle) hahead.2

/-- An entry that passes no test gets a bucket, and what it displaces does too. -/
theorem placeLoop_placed (hmask : ∀ x, x &&& mask = x % n) (hapart : Apart test T)
    (hc : Carried n i buckets entry T) (he : EmptyAhead n fuel i buckets) :
    ∃ buckets', placeLoop test mask fuel buckets entry i = .ok (none, buckets') ∧
      Ordered n buckets' ∧ content n buckets' = T := by
  obtain ⟨old, buckets', hloop, hordered, ⟨rfl, hcontent⟩ | ⟨-, -, hnot⟩⟩ :=
    placeLoop_ends test hmask hc he
  · exact ⟨buckets', hloop, hordered, hcontent⟩
  · exact absurd hapart hnot

/-! ### Finding an entry -/

/-- The first bucket that `hit` holds of lies `t` buckets after the home `h`. -/
structure FirstHit (hit : Bucket α → Bool) (n h t : Nat) (buckets : Nat → Bucket α) : Prop where
  rich : ∀ s ≤ t, s + 1 ≤ (buckets ((h + s) % n)).dib
  here : hit (buckets ((h + t) % n)) = true
  before : ∀ s < t, hit (buckets ((h + s) % n)) = false
  lt : t < n

theorem Ordered.firstHit (ho : Ordered n buckets) (hcard : (content n buckets).card < n)
    (hi : i < n) (hpos : 0 < (buckets i).dib) (hhash : (buckets i).hash % n = h % n)
    (hhit : hit (buckets i) = true) : ∃ t, FirstHit hit n h t buckets := by
  have hhere : (h + ((buckets i).dib - 1)) % n = i := by
    rw [← Nat.mod_add_mod, ← hhash, Nat.mod_add_mod]
    exact ho.home i hi hpos
  have hex : ∃ t, hit (buckets ((h + t) % n)) = true :=
    ⟨(buckets i).dib - 1, by rw [hhere]; exact hhit⟩
  have hfirst : Nat.find hex ≤ (buckets i).dib - 1 := Nat.find_min' hex (by rw [hhere]; exact hhit)
  obtain ⟨e, hlt, h0⟩ := exists_empty hcard
  have hdib := ho.dib_le hi hlt h0
  refine ⟨Nat.find hex, fun s hs => ?_, Nat.find_spec hex, fun s hs => ?_, by omega⟩
  · have hahead : ((h + s) % n + ((buckets i).dib - 1 - s)) % n = i := by
      rw [Nat.mod_add_mod]
      have he : h + s + ((buckets i).dib - 1 - s) = h + ((buckets i).dib - 1) := by omega
      rw [he]
      exact hhere
    have hle := ho.climbs.le_of_ahead (Nat.mod_lt (h + s) (by omega)) hahead
    omega
  · have hmin := Nat.find_min hex hs
    simpa using hmin

theorem findLoop_hit {cb : Callbacks α} {key : α} (hmask : ∀ x, x &&& mask = x % n)
    (hf : FirstHit (same cb hash key) n h t buckets) (hs : s ≤ t) (hfuel : t - s < fuel) :
    findLoop cb buckets mask hash key fuel ((h + s) % n) = .ok (some ((h + t) % n)) := by
  induction fuel generalizing s with
  | zero => omega
  | succ fuel ih =>
    rw [findLoop]
    have hrich := hf.rich s hs
    have h0 : (buckets ((h + s) % n)).dib ≠ 0 := by omega
    simp only [h0, if_false]
    by_cases hst : s = t
    · subst hst
      rw [if_pos hf.here]
    · have hbefore := hf.before s (by omega)
      rw [hbefore, hmask, Nat.mod_add_mod, Nat.add_assoc]
      exact ih (by omega) (by omega)

theorem findLoop_miss {cb : Callbacks α} {key : α} (hmask : ∀ x, x &&& mask = x % n)
    (hmiss : ∀ j < n, 0 < (buckets j).dib → same cb hash key (buckets j) = false) (hi : i < n)
    (he : EmptyAhead n fuel i buckets) :
    findLoop cb buckets mask hash key fuel i = .ok none := by
  induction fuel generalizing i with
  | zero =>
    obtain ⟨k, hk, -⟩ := he
    omega
  | succ fuel ih =>
    rw [findLoop]
    by_cases h0 : (buckets i).dib = 0
    · exact if_pos h0
    · have hpos : 0 < (buckets i).dib := by omega
      simp only [h0, hmiss i hi hpos, hmask, if_false, Bool.false_eq_true]
      exact ih (Nat.mod_lt _ (by omega)) (he.succ hi hpos (buckets i)).2

/-- The entry finds its bucket before it displaces anything. -/
theorem placeLoop_hit (entry : Bucket α) (hmask : ∀ x, x &&& mask = x % n)
    (htest : ∀ dib b, test { entry with dib } b = hit b) (hf : FirstHit hit n h t buckets)
    (hsmall : ∀ j < n, (buckets j).dib < dibSize) (hs : s ≤ t) (hfuel : t - s < fuel) :
    placeLoop test mask fuel buckets { entry with dib := s + 1 } ((h + s) % n) =
      .ok (some (buckets ((h + t) % n)).item, Function.update buckets ((h + t) % n)
        { buckets ((h + t) % n) with item := entry.item }) := by
  induction fuel generalizing s with
  | zero => omega
  | succ fuel ih =>
    rw [placeLoop]
    have hrich := hf.rich s hs
    have h0 : (buckets ((h + s) % n)).dib ≠ 0 := by omega
    simp only [h0, if_false, htest]
    by_cases hst : s = t
    · subst hst
      rw [if_pos hf.here]
    · have hlt : ¬ (buckets ((h + s) % n)).dib < s + 1 := by omega
      have hnext := hf.rich (s + 1) (by omega)
      have hn := hf.lt
      have hdib := hsmall ((h + (s + 1)) % n) (Nat.mod_lt _ (by omega))
      have hmod : (s + 1 + 1) % dibSize = s + 1 + 1 := Nat.mod_eq_of_lt (by omega)
      simp only [hf.before s (by omega), hlt, if_false, Bool.false_eq_true, hmask, hmod,
        Nat.mod_add_mod, Nat.add_assoc h s 1]
      exact ih (by omega) (by omega)

/-! ### Taking an entry out -/

/-- What the shifting keeps, with the hole at bucket `i`: some `dib` for the hole would
put the buckets in order. -/
structure Hole (n i : Nat) (buckets : Nat → Bucket α) (T : Multiset (Nat × α)) : Prop where
  wide : 1 < n
  lt : i < n
  home : ∀ j < n, j ≠ i → 0 < (buckets j).dib →
    ((buckets j).hash + ((buckets j).dib - 1)) % n = j
  climbs : ∃ v, Climbs n (Function.update (fun j => (buckets j).dib) i v)
  rest : gatheredBut Bucket.cell i n buckets = T

namespace Hole

theorem of_ordered (ho : Ordered n buckets) (hn : 1 < n) (hi : i < n) (b : Bucket α) :
    Hole n i (Function.update buckets i b) (gatheredBut Bucket.cell i n buckets) where
  wide := hn
  lt := hi
  home j hj hji hpos := by
    rw [Function.update_of_ne hji] at hpos ⊢
    exact ho.home j hj hpos
  climbs := by
    refine ⟨(buckets i).dib, ?_⟩
    rw [dib_update, Function.update_idem, Function.update_eq_self i fun j => (buckets j).dib]
    exact ho.climbs
  rest := gatheredBut_update b

/-- Any value fits the hole that suits the bucket after it and is not above the one that
would fit anyway. -/
theorem fits (hh : Hole n i buckets T) {d : Nat}
    (hlow : (buckets ((i + 1) % n)).dib ≤ d + 1)
    (hle : d + 1 ≤ (buckets ((i + 1) % n)).dib ∨ d = 0) :
    Climbs n (Function.update (fun j => (buckets j).dib) i d) := by
  obtain ⟨v, hv⟩ := hh.climbs
  have hne := next_ne hh.wide hh.lt
  have hstep := hv i hh.lt
  rw [Function.update_self, Function.update_of_ne hne] at hstep
  have hfit := hv.lower (i := i) (v := d) ?_ ?_
  · rw [Function.update_idem] at hfit
    exact hfit
  · rw [Function.update_of_ne hne]
    exact hlow
  · rw [Function.update_self]
    omega

/-- A hole before an empty bucket, or before an entry that is at home, closes. -/
theorem close (hh : Hole n i buckets T) (hnext : (buckets ((i + 1) % n)).dib ≤ 1) :
    Ordered n (Function.update buckets i { buckets i with dib := 0 }) ∧
      content n (Function.update buckets i { buckets i with dib := 0 }) = T := by
  refine ⟨⟨fun j hj hpos => ?_, ?_⟩, ?_⟩
  · by_cases hji : j = i
    · subst hji
      rw [Function.update_self] at hpos
      exact absurd hpos (Nat.lt_irrefl 0)
    · rw [Function.update_of_ne hji] at hpos ⊢
      exact hh.home j hj hji hpos
  · rw [dib_update]
    exact hh.fits hnext (Or.inr rfl)
  · unfold content
    rw [gathered_eq _ _ hh.lt, gatheredBut_update, Function.update_self, Bucket.cell_empty rfl,
      add_zero, hh.rest]

/-- An entry away from its home moves into the hole before it. -/
theorem shift (hh : Hole n i buckets T) (hnext : 2 ≤ (buckets ((i + 1) % n)).dib) :
    Hole n ((i + 1) % n) (Function.update buckets i
      { buckets ((i + 1) % n) with dib := (buckets ((i + 1) % n)).dib - 1 }) T := by
  have hi := hh.lt
  have hne := next_ne hh.wide hi
  have hlt : (i + 1) % n < n := Nat.mod_lt _ (by omega)
  refine ⟨hh.wide, hlt, fun j hj hjn hpos => ?_, ⟨(buckets ((i + 1) % n)).dib, ?_⟩, ?_⟩
  · by_cases hji : j = i
    · subst hji
      rw [Function.update_self]
      have hhome := hh.home _ hlt hne (by omega)
      obtain ⟨d, hd⟩ := Nat.exists_eq_add_of_le hnext
      rw [hd, Nat.add_comm 2 d] at hhome ⊢
      exact home_pred hj hhome
    · rw [Function.update_of_ne hji] at hpos ⊢
      exact hh.home j hj hji hpos
  · have hfit := hh.fits (d := (buckets ((i + 1) % n)).dib - 1) (by omega) (Or.inl (by omega))
    rw [dib_update]
    rw [Function.update_comm hne.symm,
      Function.update_eq_self ((i + 1) % n) fun j => (buckets j).dib]
    exact hfit
  · have hpos : 0 < (buckets ((i + 1) % n)).dib := by omega
    have hat := gathered_eq Bucket.cell (Function.update buckets i
      { buckets ((i + 1) % n) with dib := (buckets ((i + 1) % n)).dib - 1 }) hi
    rw [gathered_eq _ _ hlt, gatheredBut_update, hh.rest, Function.update_self,
      Function.update_of_ne hne, Bucket.cell_taken hpos, Bucket.cell_taken] at hat
    · exact add_right_cancel hat
    · exact Nat.sub_pos_of_lt hnext

end Hole

theorem shiftLoop_spec (hmask : ∀ x, x &&& mask = x % n) (hh : Hole n i buckets T)
    (he : ∃ k < fuel, (i + 1 + k) % n ≠ i ∧ (buckets ((i + 1 + k) % n)).dib = 0) :
    ∃ buckets', shiftLoop mask fuel buckets i = .ok buckets' ∧ Ordered n buckets' ∧
      content n buckets' = T := by
  induction fuel generalizing buckets i with
  | zero =>
    obtain ⟨k, hk, -⟩ := he
    omega
  | succ fuel ih =>
    rw [shiftLoop]
    simp only [hmask]
    by_cases hnext : (buckets ((i + 1) % n)).dib ≤ 1
    · obtain ⟨hordered, hcontent⟩ := hh.close hnext
      exact ⟨_, if_pos hnext, hordered, hcontent⟩
    · rw [if_neg hnext]
      apply ih (hh.shift (by omega))
      obtain ⟨k, hk, hne, h0⟩ := he
      cases k with
      | zero =>
        rw [Nat.add_zero] at h0
        omega
      | succ k =>
        have hahead : ((i + 1) % n + 1 + k) % n = (i + 1 + (k + 1)) % n := by
          rw [Nat.add_assoc, Nat.mod_add_mod]
          congr 1
          omega
        refine ⟨k, by omega, ?_, ?_⟩
        · rw [hahead]
          intro heq
          rw [heq] at h0
          omega
        · rw [hahead, Function.update_of_ne hne]
          exact h0

/-- Taking out the entry in bucket `i`. -/
theorem Ordered.takeOut (ho : Ordered n buckets) (hmask : ∀ x, x &&& mask = x % n) (hn : 1 < n)
    (hi : i < n) (hpos : 0 < (buckets i).dib) (hcard : (content n buckets).card < n) :
    ∃ buckets', shiftLoop mask n (Function.update buckets i { buckets i with dib := 0 }) i =
        .ok buckets' ∧ Ordered n buckets' ∧
      content n buckets' + {(buckets i).pair} = content n buckets := by
  obtain ⟨j, hj, h0⟩ := exists_empty hcard
  have hji : j ≠ i := by
    intro heq
    subst heq
    omega
  obtain ⟨k, hk, hahead⟩ := exists_ahead (Nat.mod_lt (i + 1) (by omega)) hj
  rw [Nat.mod_add_mod] at hahead
  have hhole := Hole.of_ordered ho hn hi { buckets i with dib := 0 }
  obtain ⟨buckets', hloop, hordered, hcontent⟩ := shiftLoop_spec hmask hhole
    ⟨k, hk, by rw [hahead]; exact hji, by rw [hahead, Function.update_of_ne hji]; exact h0⟩
  refine ⟨buckets', hloop, hordered, ?_⟩
  have hall := gathered_eq Bucket.cell buckets hi
  rw [Bucket.cell_taken hpos] at hall
  rw [hcontent]
  exact hall.symm

end CacheServer.RobinHood
