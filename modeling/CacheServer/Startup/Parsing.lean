import CacheServer.Model.Configuration

/-!
# What the arguments say

The arguments are pairs of a key and a value; a last key without a value is only
looked at. Of the values for one type the last one counts, and the blocks of the
others have been freed. A value that is too long for its block is written past
the end of it.
-/

namespace CacheServer.Configuration

/-- The last value that the arguments give for the type. -/
def lastGiven (type : ConfigurationType) : List CString → Option CString
  | key :: value :: rest =>
    match lastGiven type rest with
    | some v => some v
    | none => if parseKey key = .ok type then some value else none
  | _ => none

/-- Every key is that of a type. -/
def KeysKnown : List CString → Prop
  | key :: _ :: rest => (∃ type, parseKey key = .ok type) ∧ KeysKnown rest
  | [key] => ∃ type, parseKey key = .ok type
  | [] => True

/-- The value that the program reads. -/
def expected (args : List CString) (type : ConfigurationType) : Content :=
  match lastGiven type args with
  | some v => content v type
  | none => defaultValue type

/-- Some IP address has a length to which `uint32_t size` wraps. -/
def Overlong : List CString → Prop
  | key :: value :: rest =>
    parseKey key = .ok .ipAddress ∧ 2 ^ 32 ≤ value.length + 1 ∨ Overlong rest
  | _ => False

/-- The live blocks are those of the values, one each. -/
structure Context.Owned (c : Context) : Prop where
  live : ∀ type id, c.values type = some (.block id) → c.blocks id ≠ none
  held : ∀ id, c.blocks id ≠ none → ∃ type, c.values type = some (.block id)
  apart : ∀ t t' id, c.values t = some (.block id) → c.values t' = some (.block id) → t = t'
  fresh : ∀ id, c.blocks id ≠ none → id < c.malloced

/-- No value has become a default yet. -/
def Context.Undefaulted (c : Context) : Prop := ∀ type t, c.values type ≠ some (.default t)

/-- What the block of the value holds. -/
def Context.given (c : Context) (type : ConfigurationType) : Option Content :=
  match c.values type with
  | some (.block id) => c.blocks id
  | _ => none

section
variable {mallocs : Nat → Bool} {args : List CString} {c c' : Context} {type t : ConfigurationType}
  {input : CString}

theorem parseKey_exits (h : ¬ ∃ type, parseKey input = .ok type) :
    parseKey input = .error (.exit 1) := by
  unfold parseKey at h ⊢
  split_ifs at h ⊢ <;> first | rfl | exact absurd ⟨_, rfl⟩ h

theorem fits_eq_false_iff :
    fits input type = false ↔ type = .ipAddress ∧ 2 ^ 32 ≤ input.length + 1 := by
  cases type with
  | ipAddress =>
    have hfits : fits input .ipAddress = true ↔ input.length + 1 ≤ stringSize input :=
      decide_eq_true_iff
    rw [← Bool.not_eq_true, hfits, stringSize]
    constructor
    · refine fun h => ⟨rfl, ?_⟩
      by_contra hlt
      rw [Nat.mod_eq_of_lt (by omega)] at h
      exact h le_rfl
    · rintro ⟨-, hlen⟩ hle
      have hlt : (input.length + 1) % 2 ^ 32 < 2 ^ 32 := Nat.mod_lt _ (by decide)
      omega
  | _ => simp [fits, dataType]

/-- `free` takes the block of the value, if there is one. -/
theorem freeValue_spec (ho : c.Owned) (hu : c.Undefaulted) (type : ConfigurationType) :
    ∃ c₁, freeValue type c = .ok c₁ ∧ c₁.values = c.values ∧ c₁.malloced = c.malloced ∧
      ∀ i, c₁.blocks i = if c.values type = some (.block i) then none else c.blocks i := by
  unfold freeValue
  cases hv : c.values type with
  | none => exact ⟨c, rfl, rfl, rfl, fun i => rfl⟩
  | some place =>
    cases place with
    | default t => exact absurd hv (hu type t)
    | block id =>
      cases hb : c.blocks id with
      | none => exact absurd hb (ho.live type id hv)
      | some content =>
        refine ⟨{ c with blocks := fun i => if i = id then none else c.blocks i },
          by simp only [hb], rfl, rfl, fun i => ?_⟩
        by_cases hi : i = id
        · rw [hi, if_pos rfl]
          exact if_pos rfl
        · have hne : ¬ some (Place.block id) = some (.block i) := by
            intro he
            exact hi (Place.block.inj (Option.some.inj he)).symm
          rw [if_neg hne]
          exact if_neg hi

/-- The context after the value was stored. -/
theorem stored_spec (ho : c.Owned) (hu : c.Undefaulted) {c₁ : Context} {new : Content}
    (hvalues : c₁.values = c.values) (hmalloced : c₁.malloced = c.malloced)
    (hblocks : ∀ i, c₁.blocks i = if c.values type = some (.block i) then none else c.blocks i)
    (hc' : c' = ⟨fun t => if t = type then some (.block c₁.malloced) else c₁.values t,
      fun i => if i = c₁.malloced then some new else c₁.blocks i, c₁.malloced + 1⟩) :
    c'.Owned ∧ c'.Undefaulted ∧
      ∀ t, c'.given t = if t = type then some new else c.given t := by
  rw [hvalues, hmalloced] at hc'
  have hself : c'.values type = some (.block c.malloced) := by
    rw [hc']
    exact if_pos rfl
  have hother : ∀ t, t ≠ type → c'.values t = c.values t := by
    intro t ht
    rw [hc']
    exact if_neg ht
  have hnew : c'.blocks c.malloced = some new := by
    rw [hc']
    exact if_pos rfl
  have hrest : ∀ t, t ≠ type → ∀ id, c.values t = some (.block id) →
      id ≠ c.malloced ∧ c'.blocks id = c.blocks id := by
    intro t ht id hid
    have hlt := ho.fresh id (ho.live t id hid)
    have hne : ¬ c.values type = some (.block id) := fun he => ht (ho.apart t type id hid he)
    refine ⟨by omega, ?_⟩
    rw [hc']
    change (if id = c.malloced then some new else c₁.blocks id) = c.blocks id
    rw [if_neg (by omega), hblocks, if_neg hne]
  have hold : ∀ id, id ≠ c.malloced → c'.blocks id ≠ none →
      ¬ c.values type = some (.block id) ∧ c.blocks id ≠ none := by
    intro id hid hlive
    rw [hc'] at hlive
    change (if id = c.malloced then some new else c₁.blocks id) ≠ none at hlive
    rw [if_neg hid, hblocks] at hlive
    by_cases he : c.values type = some (.block id)
    · rw [if_pos he] at hlive
      exact absurd rfl hlive
    · rw [if_neg he] at hlive
      exact ⟨he, hlive⟩
  refine ⟨⟨?_, ?_, ?_, ?_⟩, ?_, ?_⟩
  · intro t id hid
    by_cases ht : t = type
    · subst ht
      rw [hself] at hid
      cases hid
      rw [hnew]
      exact Option.some_ne_none _
    · rw [hother t ht] at hid
      rw [(hrest t ht id hid).2]
      exact ho.live t id hid
  · intro id hlive
    by_cases hid : id = c.malloced
    · subst hid
      exact ⟨type, hself⟩
    · obtain ⟨hne, hb⟩ := hold id hid hlive
      obtain ⟨t, ht⟩ := ho.held id hb
      have htype : t ≠ type := by
        rintro rfl
        exact hne ht
      exact ⟨t, (hother t htype).trans ht⟩
  · intro t t' id ht ht'
    by_cases h : t = type
    · subst h
      rw [hself] at ht
      cases ht
      by_contra hne
      rw [hother t' (Ne.symm hne)] at ht'
      exact (hrest t' (Ne.symm hne) _ ht').1 rfl
    · rw [hother t h] at ht
      by_cases h' : t' = type
      · subst h'
        rw [hself] at ht'
        cases ht'
        exact absurd rfl (hrest t h _ ht).1
      · rw [hother t' h'] at ht'
        exact ho.apart t t' id ht ht'
  · intro id hlive
    have hmall : c'.malloced = c.malloced + 1 := by rw [hc']
    rw [hmall]
    by_cases hid : id = c.malloced
    · omega
    · have := ho.fresh id (hold id hid hlive).2
      omega
  · intro t d hd
    by_cases ht : t = type
    · subst ht
      rw [hself] at hd
      cases hd
    · rw [hother t ht] at hd
      exact hu t d hd
  · intro t
    by_cases ht : t = type
    · subst ht
      rw [if_pos rfl, Context.given, hself]
      exact hnew
    · rw [if_neg ht, Context.given, Context.given, hother t ht]
      cases hv : c.values t with
      | none => rfl
      | some place =>
        cases place with
        | default d => rfl
        | block id => exact (hrest t ht id hv).2

theorem parseValue_spec (ho : c.Owned) (hu : c.Undefaulted) (mallocs : Nat → Bool)
    (input : CString) (type : ConfigurationType) :
    parseValue mallocs input type c = .error (.fault .nullPointer) ∧ (∃ i, mallocs i = false) ∨
      parseValue mallocs input type c = .error (.fault .outOfBounds) ∧ fits input type = false ∨
      ∃ c', parseValue mallocs input type c = .ok c' ∧ fits input type = true ∧ c'.Owned ∧ c'.Undefaulted ∧
        ∀ t, c'.given t = if t = type then some (content input type) else c.given t := by
  obtain ⟨c₁, hfree, hvalues, hmalloced, hblocks⟩ := freeValue_spec ho hu type
  cases hm : mallocs c₁.malloced with
  | false =>
    refine Or.inl ⟨?_, c₁.malloced, hm⟩
    simp only [parseValue, hfree, hm, Bool.false_eq_true, if_false]
  | true =>
    cases hf : fits input type with
    | false =>
      refine Or.inr (Or.inl ⟨?_, rfl⟩)
      simp only [parseValue, hfree, hm, hf, Bool.false_eq_true, if_true, if_false]
    | true =>
      refine Or.inr (Or.inr ⟨_, ?_, rfl, stored_spec ho hu hvalues hmalloced hblocks rfl⟩)
      simp only [parseValue, hfree, hm, hf, if_true]

/-- How the loop over the arguments ends, from a context `c`. -/
def LoopEnds (mallocs : Nat → Bool) (args : List CString) (c : Context) :
    Except Stop Context → Prop
  | .ok c' => KeysKnown args ∧ ¬ Overlong args ∧ c'.Owned ∧ c'.Undefaulted ∧
    ∀ t, c'.given t = match lastGiven t args with
      | some v => some (content v t)
      | none => c.given t
  | .error (.exit status) => status = 1 ∧ ¬ KeysKnown args
  | .error (.fault fault) => fault = .nullPointer ∧ (∃ i, mallocs i = false) ∨
    fault = .outOfBounds ∧ Overlong args

/-- One more pair in front. -/
theorem LoopEnds.cons {key value : CString} {rest : List CString} {c₁ : Context}
    {result : Except Stop Context} (h : LoopEnds mallocs rest c₁ result)
    (hkey : parseKey key = .ok type) (hfits : fits value type = true)
    (hgiven₁ : ∀ t, c₁.given t = if t = type then some (content value type) else c.given t) :
    LoopEnds mallocs (key :: value :: rest) c result := by
  cases result with
  | ok c' =>
    obtain ⟨hrest, hshort, ho', hu', hgiven⟩ := h
    have hlong : ¬ Overlong (key :: value :: rest) := by
      rintro (⟨hip, hlen⟩ | h)
      · rw [hkey] at hip
        rw [fits_eq_false_iff.mpr ⟨Except.ok.inj hip, hlen⟩] at hfits
        cases hfits
      · exact hshort h
    refine ⟨⟨⟨type, hkey⟩, hrest⟩, hlong, ho', hu', fun t => ?_⟩
    rw [hgiven t, hgiven₁ t, lastGiven, hkey]
    cases lastGiven t rest with
    | some v => rfl
    | none =>
      by_cases ht : t = type
      · subst ht
        simp
      · have hne : ¬ (Except.ok type : Except Stop ConfigurationType) = .ok t := by
          intro he
          exact ht (Except.ok.inj he).symm
        simp [ht, hne]
  | error stop =>
    cases stop with
    | exit status => exact ⟨h.1, fun hk => h.2 hk.2⟩
    | fault fault => exact h.imp_right fun h => ⟨h.1, Or.inr h.2⟩

theorem parseLoop_spec (mallocs : Nat → Bool) :
    ∀ (args : List CString) (c : Context), c.Owned → c.Undefaulted →
      LoopEnds mallocs args c (parseLoop mallocs args .awaitingKey c)
  | [], c, ho, hu => ⟨trivial, not_false, ho, hu, fun _ => rfl⟩
  | [key], c, ho, hu => by
    by_cases hkey : ∃ type, parseKey key = .ok type
    · have hknown : KeysKnown [key] := hkey
      obtain ⟨type, hkey⟩ := hkey
      simp only [parseLoop, hkey]
      exact ⟨hknown, not_false, ho, hu, fun _ => rfl⟩
    · simp only [parseLoop, parseKey_exits hkey]
      exact ⟨rfl, hkey⟩
  | key :: value :: rest, c, ho, hu => by
    by_cases hkey : ∃ type, parseKey key = .ok type
    · obtain ⟨type, hkey⟩ := hkey
      rcases parseValue_spec ho hu mallocs value type with
        ⟨hfault, hm⟩ | ⟨hfault, hlong⟩ | ⟨c₁, hvalue, hfits, ho₁, hu₁, hgiven₁⟩
      · simp only [parseLoop, hkey, hfault]
        exact Or.inl ⟨rfl, hm⟩
      · simp only [parseLoop, hkey, hfault]
        obtain ⟨rfl, hlen⟩ := fits_eq_false_iff.mp hlong
        exact Or.inr ⟨rfl, Or.inl ⟨hkey, hlen⟩⟩
      · simp only [parseLoop, hkey, hvalue]
        exact (parseLoop_spec mallocs rest c₁ ho₁ hu₁).cons hkey hfits hgiven₁
    · simp only [parseLoop, parseKey_exits hkey]
      exact ⟨rfl, fun hk => hkey hk.1⟩

/-! ### configuration_parse -/

theorem started_owned : started.Owned where
  live _ _ h := by cases h
  held _ h := absurd rfl h
  apart _ _ _ h := by cases h
  fresh _ h := absurd rfl h

theorem fillDefaults_values (c : Context) (t : ConfigurationType) :
    (fillDefaults c).values t = some ((c.values t).getD (.default t)) := rfl

theorem fillDefaults_owned (ho : c.Owned) : (fillDefaults c).Owned := by
  have hvalues : ∀ t id, (fillDefaults c).values t = some (.block id) ↔
      c.values t = some (.block id) := by
    intro t id
    rw [fillDefaults_values]
    cases c.values t with
    | none => simp
    | some place => simp
  exact ⟨fun t id h => ho.live t id ((hvalues t id).mp h),
    fun id h => (ho.held id h).imp fun t ht => (hvalues t id).mpr ht,
    fun t t' id h h' => ho.apart t t' id ((hvalues t id).mp h) ((hvalues t' id).mp h'), ho.fresh⟩

theorem read_fillDefaults (ho : c.Owned) (hu : c.Undefaulted) (type : ConfigurationType) :
    read (fillDefaults c) type = .ok ((c.given type).getD (defaultValue type)) := by
  rw [read, fillDefaults_values, Context.given]
  cases hv : c.values type with
  | none => rfl
  | some place =>
    cases place with
    | default t => exact absurd hv (hu type t)
    | block id =>
      have hblocks : (fillDefaults c).blocks id = c.blocks id := rfl
      cases hb : c.blocks id with
      | none => exact absurd hb (ho.live type id hv)
      | some content => simp [hblocks, hb]

theorem expected_type (args : List CString) (type : ConfigurationType) :
    match expected args type with
    | .int64 _ => dataType type = .int64
    | .string _ => dataType type = .string := by
  unfold expected
  cases lastGiven type args with
  | none => cases type <;> rfl
  | some v => cases type <;> rfl

/-- The program goes on only with known keys and strings that fit: what it reads as a number or as
a string is then the last value given or the default, and each block that is left belongs to one
value. It ends with status 1 only for an unknown key, and otherwise only where malloc fails or where
an IP address of 2 ^ 32 - 1 bytes or more is written past the end of its block. -/
theorem configurationParse_spec (mallocs : Nat → Bool) (args : List CString) :
    match configurationParse mallocs args started with
    | .ok c => KeysKnown args ∧ ¬ Overlong args ∧ c.Owned ∧ ∀ type, match expected args type with
      | .int64 value => dataType type = .int64 ∧ configurationGetInt c type = .ok value
      | .string value => dataType type = .string ∧ configurationGetString c type = .ok value
    | .error (.exit status) => status = 1 ∧ ¬ KeysKnown args
    | .error (.fault fault) => fault = .nullPointer ∧ (∃ i, mallocs i = false) ∨
      fault = .outOfBounds ∧ Overlong args := by
  have hu : started.Undefaulted := fun _ _ h => by cases h
  have hends := parseLoop_spec mallocs args _ started_owned hu
  have hstart : ({ started with values := fun _ => none } : Context) = started := rfl
  unfold configurationParse
  rw [hstart]
  cases hloop : parseLoop mallocs args .awaitingKey started with
  | error stop =>
    rw [hloop] at hends
    cases stop with
    | exit status => exact hends
    | fault fault => exact hends
  | ok c =>
    rw [hloop] at hends
    obtain ⟨hk, hshort, ho, hu', hgiven⟩ := hends
    refine ⟨hk, hshort, fillDefaults_owned ho, fun type => ?_⟩
    have hread : read (fillDefaults c) type = .ok (expected args type) := by
      rw [read_fillDefaults ho hu', hgiven type, expected]
      cases lastGiven type args with
      | none => rfl
      | some v => rfl
    have htype := expected_type args type
    cases hexpected : expected args type with
    | int64 value =>
      rw [hexpected] at htype hread
      exact ⟨htype, by rw [configurationGetInt, hread]⟩
    | string value =>
      rw [hexpected] at htype hread
      exact ⟨htype, by rw [configurationGetString, hread]⟩

/- The last port counts; a key at the end has no effect. -/
example : expected (["--port", "80", "--ip-address", "::1", "--port", " 81x", "--port"].map literal)
    .port = .int64 81 := by
  decide +kernel

end

end CacheServer.Configuration
