import CacheServer.Wire.ProtocolLines
import CacheServer.Model.CacheClient

/-!
# Reading a protocol

From the text of a header the client gets what its declarations say: the members
of the structures with their formats and sizes, the entries of the enums with
their values.
-/

namespace CacheServer.CacheProtocol
open Pattern

/-! ### Members -/

theorem head_identifier (i : Identifier) {rest : Text} (hstop : ∀ c ∈ rest.head?, isWord c = false) :
    ((group (seq (one isWord) (many isWord))).ways (i.text ++ rest)).head? =
      some ⟨i.text, [i.text], rest⟩ := by
  have hword := i.isWord
  obtain ⟨c, cs, hcs⟩ := List.exists_cons_of_ne_nil i.nonempty
  rw [hcs] at hword ⊢
  exact head_group (head_seq (head_one (hword c (List.mem_cons_self ..)))
    (head_many (fun d hd => hword d (List.mem_cons_of_mem _ hd)) hstop))

theorem head_blanks (b : Blanks) (hne : b.text ≠ []) {rest : Text}
    (hstop : ∀ c ∈ rest.head?, isSpace c = false) :
    ((seq (one isSpace) (many isSpace)).ways (b.text ++ rest)).head? = some ⟨b.text, [], rest⟩ := by
  have hspace := b.isSpace
  obtain ⟨c, cs, hcs⟩ := List.exists_cons_of_ne_nil hne
  rw [hcs] at hspace ⊢
  exact head_seq (head_one (hspace c (List.mem_cons_self ..)))
    (head_many (fun d hd => hspace d (List.mem_cons_of_mem _ hd)) hstop)

namespace Member
variable (m : Member)

def lengthText : Text :=
  match m.arrayLength with
  | none => []
  | some length => Nat.toDigits 10 length

theorem head_array :
    ∃ text, ((Pattern.either (seq (word ['[']) (seq (group (many Char.isDigit)) (word [']'])))
      (absent 1)).ways (m.arrayText ++ [';'])).head? = some ⟨text, [m.lengthText], [';']⟩ := by
  cases h : m.arrayLength with
  | none =>
    refine ⟨[], ?_⟩
    simp only [arrayText, lengthText, h]
    exact head_either_right rfl rfl
  | some length =>
    refine ⟨['['] ++ (Nat.toDigits 10 length ++ [']']), ?_⟩
    simp only [arrayText, lengthText, h, List.append_assoc]
    exact head_either (head_seq head_word (head_seq (head_group
      (head_many (fun c hc => Nat.isDigit_of_mem_toDigits (by decide) (by decide) hc)
        (by decide))) head_word))

theorem lengthText_length : (if m.lengthText = [] then 1 else int m.lengthText) = m.length := by
  cases h : m.arrayLength with
  | none => simp [lengthText, length, h]
  | some length =>
    simp [lengthText, Member.length, h, int, Nat.toDigits_ne_nil, Nat.ofDigitChars_toDigits]

theorem first_space {i : Identifier} {rest : Text} : ∀ c ∈ (i.text ++ rest).head?, isSpace c = false := by
  intro c hc
  rw [List.head?_append_of_ne_nil _ i.nonempty] at hc
  exact i.not_space (List.mem_of_mem_head? hc)

theorem type_search :
    (typeRegex.search m.code).map Match.groups = some [m.type.text, m.name.text, m.lengthText] := by
  obtain ⟨text, harray⟩ := m.head_array
  have hindent : ((many isSpace).ways m.code).head? = some ⟨[], [], m.code⟩ := by
    rw [ways, code, runs_stop first_space]
    rfl
  have hgap : ∀ c ∈ (m.gap.text ++ (m.name.text ++ (m.arrayText ++ [';']))).head?, isWord c = false := by
    intro c hc
    rw [List.head?_append_of_ne_nil _ m.gapNonempty] at hc
    rcases m.gap.blank c (List.mem_of_mem_head? hc) with rfl | rfl <;> rfl
  have hname : ∀ c ∈ (m.arrayText ++ [';']).head?, isWord c = false := by
    cases h : m.arrayLength with
    | none =>
      simp only [arrayText, h]
      decide
    | some length =>
      simp only [arrayText, h]
      rintro c ⟨⟩
      rfl
  have hsearch : typeRegex.search m.code = some _ :=
    search_start (head_seq hindent (head_seq (head_identifier m.type hgap)
      (head_seq (head_blanks m.gap m.gapNonempty first_space)
        (head_seq (head_identifier m.name hname) (head_seq harray rfl)))))
  rw [hsearch]
  rfl

end Member

/-! ### The lines around the members -/

theorem type_none {line : Text} (h : ';' ∉ line) : typeRegex.search line = none :=
  search_none fun _ hzs => seq_none fun _ hm => seq_none fun _ hn => seq_none fun _ ho =>
    seq_none fun _ hp => seq_none fun _ hq => word_none (by decide : ';' ∈ [';']) fun hmem =>
      h (((rest_suffix hq).trans ((rest_suffix hp).trans ((rest_suffix ho).trans
        ((rest_suffix hn).trans ((rest_suffix hm).trans hzs))))).subset hmem)

/-- Nothing in the closing has a word with blanks after it. -/
theorem type_closing (d : Declaration) : typeRegex.search d.closingCode = none := by
  have hspace : ∀ c ∈ d.name.text ++ ['_', 't', ';'], isSpace c = false := by
    intro c hc
    rcases List.mem_append.mp hc with hc | hc
    · exact d.name.not_space hc
    · exact (by decide : ∀ c ∈ ['_', 't', ';'], isSpace c = false) c hc
  refine search_none fun zs hzs => ?_
  rcases List.suffix_cons_iff.mp hzs with rfl | hzs
  · refine seq_none fun m hm => seq_none_left (group_none (seq_none_left ?_))
    rw [ways, runs_stop (by rintro c ⟨⟩; rfl)] at hm
    obtain rfl := List.mem_singleton.mp hm
    rfl
  refine seq_none fun m hm => ?_
  rcases List.suffix_cons_iff.mp ((rest_suffix hm).trans hzs) with hrest | hrest
  · rw [hrest]
    exact seq_none_left rfl
  · refine seq_none fun n hn => seq_none_left (seq_none_left (one_none fun c hc => ?_))
    exact hspace c (((rest_suffix hn).trans hrest).subset (List.mem_of_mem_head? hc))

/-! ### Structures -/

section
variable {varlist : List (Text × Nat)} {format : Text} {rest : List Text}

theorem structInfoLoop_skip {line : Text} (h : typeRegex.search line = none) :
    structInfoLoop (line :: rest) varlist format = structInfoLoop rest varlist format := by
  rw [structInfoLoop, h]
  rfl

theorem structInfoLoop_member (m : Member) :
    structInfoLoop (m.code :: rest) varlist format = structInfoLoop rest
      (varlist ++ [(m.name.text, m.length)]) (format ++ List.replicate m.length m.format) := by
  simp only [structInfoLoop, m.type_search, m.known, m.lengthText_length]

theorem structInfoLoop_members (members : List Member) :
    structInfoLoop (members.map Member.code ++ rest) varlist format = structInfoLoop rest
      (varlist ++ members.map fun m => (m.name.text, m.length))
      (format ++ members.flatMap fun m => List.replicate m.length m.format) := by
  induction members generalizing varlist format with
  | nil => simp
  | cons m members ih =>
    rw [List.map_cons, List.cons_append, structInfoLoop_member, ih]
    simp

-- a type of several words is none for the pattern
example : structInfo "long long int lli;".toList packFormat = .error .keyError := by decide

end

theorem lineBreak_space {c : Char} (h : isSpace c = false) : isLineBreak c = false := by
  by_contra hbreak
  rw [Bool.not_eq_false, isLineBreak, Bool.or_eq_true, Bool.and_eq_true, Bool.and_eq_true] at hbreak
  simp only [decide_eq_true_eq] at hbreak
  simp only [isSpace, Bool.or_eq_false_iff, Bool.and_eq_false_iff, decide_eq_false_iff_not] at h
  omega

theorem splitlines_joinLines {lines : List Text} (hne : lines ≠ [])
    (hbreak : ∀ line ∈ lines, ∀ c ∈ line, isLineBreak c = false) :
    splitlines (joinLines lines) = lines := by
  induction lines with
  | nil => exact absurd rfl hne
  | cons line lines ih =>
    have hline := List.splitOnP_eq_singleton (hbreak line (List.mem_cons_self ..))
    cases lines with
    | nil => simpa [splitlines, joinLines] using hline
    | cons next lines =>
      have htail := ih (List.cons_ne_nil _ _) fun l hl => hbreak l (List.mem_cons_of_mem _ hl)
      rw [joinLines, List.intercalate_cons_cons, List.append_assoc, List.singleton_append, splitlines,
        List.splitOnP_append_cons _ _ (by rfl), hline]
      exact congrArg (line :: ·) htail

theorem joined_lines (opening closing : Text) (codes : List Text)
    (hopening : ∀ c ∈ opening, isLineBreak c = false) (hclosing : ∀ c ∈ closing, isLineBreak c = false)
    (hcodes : ∀ code ∈ codes, ∀ c ∈ code, isLineBreak c = false) :
    splitlines (joinLines (opening :: (codes ++ [closing]))) = opening :: (codes ++ [closing]) := by
  refine splitlines_joinLines (List.cons_ne_nil _ _) fun line hline => ?_
  rcases List.mem_cons.mp hline with rfl | hline
  · exact hopening
  rcases List.mem_append.mp hline with hline | hline
  · exact hcodes line hline
  · obtain rfl := List.mem_singleton.mp hline
    exact hclosing

theorem Member.code_chars (m : Member) : ∀ c ∈ m.code, isLineBreak c = false ∧ c ≠ '{' ∧ c ≠ '}' ∧ c ≠ '/' := by
  have hword : ∀ (i : Identifier) c, c ∈ i.text →
      isLineBreak c = false ∧ c ≠ '{' ∧ c ≠ '}' ∧ c ≠ '/' := by
    intro i c hc
    refine ⟨lineBreak_space (i.not_space hc), ?_, ?_, ?_⟩ <;> rintro rfl <;>
      exact i.not_mem (by decide) hc
  have hdigit : ∀ c, c.isDigit = true → isLineBreak c = false ∧ c ≠ '{' ∧ c ≠ '}' ∧ c ≠ '/' := by
    intro c hc
    have hw : isWord c = true := by simp [isWord, Char.isAlphanum, hc]
    exact hword ⟨[c], List.cons_ne_nil _ _, by simpa using hw⟩ c (List.mem_singleton_self c)
  intro c hc
  simp only [Member.code, List.mem_append] at hc
  rcases hc with hc | hc | hc | hc | hc
  · exact hword _ c hc
  · rcases m.gap.blank c hc with rfl | rfl <;> decide
  · exact hword _ c hc
  · cases h : m.arrayLength with
    | none => simp [Member.arrayText, h] at hc
    | some length =>
      simp only [Member.arrayText, h, List.mem_append] at hc
      rcases hc with hc | hc | hc
      · obtain rfl := List.mem_singleton.mp hc
        decide
      · exact hdigit c (Nat.isDigit_of_mem_toDigits (by decide) (by decide) hc)
      · obtain rfl := List.mem_singleton.mp hc
        decide
  · obtain rfl := List.mem_singleton.mp hc
    decide

theorem Declaration.closing_lineBreak (d : Declaration) : ∀ c ∈ d.closingCode, isLineBreak c = false := by
  intro c hc
  simp only [Declaration.closingCode, List.mem_append] at hc
  rcases hc with hc | hc | hc
  · exact (by decide : ∀ c ∈ ['}', ' '], isLineBreak c = false) c hc
  · exact lineBreak_space (d.name.not_space hc)
  · exact (by decide : ∀ c ∈ ['_', 't', ';'], isLineBreak c = false) c hc

theorem calcsize_append (format : Text) (members : List Member) :
    calcsize (format ++ members.flatMap fun m => List.replicate m.length m.format) =
      calcsize format + (members.map Member.size).sum := by
  induction members with
  | nil => simp [calcsize]
  | cons m members ih =>
    simp only [calcsize, List.map_append, List.sum_append, List.flatMap_cons, List.map_cons,
      List.sum_cons, List.map_replicate, List.sum_replicate_nat, Member.size] at ih ⊢
    omega

/-- The formats and lengths of the members come out of the text of a structure. -/
theorem structInfo_members (d : Declaration) (members : List Member) :
    structInfo (joinLines (Body.openingCode .struct :: (members.map Member.code ++ [d.closingCode])))
        packFormat =
      .ok (members.map fun m => (m.name.text, m.length),
        packFormat ++ members.flatMap fun m => List.replicate m.length m.format) := by
  have hopening : ∀ c ∈ Body.openingCode .struct, isLineBreak c = false := by decide
  have hcodes : ∀ code ∈ members.map Member.code, ∀ c ∈ code, isLineBreak c = false := by
    intro code hcode c hc
    obtain ⟨m, -, rfl⟩ := List.mem_map.mp hcode
    exact (m.code_chars c hc).1
  rw [structInfo, joined_lines _ _ _ hopening d.closing_lineBreak hcodes,
    structInfoLoop_skip (type_none (by decide)), structInfoLoop_members,
    structInfoLoop_skip (type_closing d), structInfoLoop, List.nil_append]

theorem define_struct (eval : Text → Except ProtocolError Int) (d : Declaration)
    (members : List Member) :
    define eval .struct (Body.openingCode .struct :: (members.map Member.code ++ [d.closingCode])) =
      .ok ⟨some (packFormat ++ members.flatMap fun m => List.replicate m.length m.format),
        .struct (members.map fun m => (m.name.text, m.length)), (members.map Member.size).sum,
        joinLines (Body.openingCode .struct :: (members.map Member.code ++ [d.closingCode]))⟩ := by
  have hsize : calcsize packFormat = 0 := rfl
  simp only [define, structSize, structInfo_members, Except.map, calcsize_append, hsize, Nat.zero_add]

/-! ### Enums -/

theorem withoutCommas_append (s t : Text) : withoutCommas (s ++ t) = withoutCommas s ++ withoutCommas t :=
  List.filter_append ..

theorem Identifier.withoutCommas (i : Identifier) : withoutCommas i.text = i.text := by
  refine List.filter_eq_self.mpr fun c hc => ?_
  simp only [decide_eq_true_eq]
  rintro (rfl | rfl | rfl) <;> exact i.not_mem (by decide) hc

/-- What is left of an entry. -/
theorem Entry.withoutCommas_code (e : Entry) :
    withoutCommas e.code = e.name.text ++
      match e.value with
      | none => []
      | some (expression, _) => '=' :: withoutCommas expression.text := by
  have hcomma : withoutCommas (if e.comma then [','] else []) = [] := by cases e.comma <;> rfl
  rw [Entry.code, withoutCommas_append, withoutCommas_append, e.name.withoutCommas, hcomma,
    List.append_nil]
  cases h : e.value with
  | none => simp [Entry.valueText, h, withoutCommas]
  | some value =>
    simp only [Entry.valueText, h, withoutCommas_append]
    rfl

theorem splitOn_entry (e : Entry) :
    (withoutCommas e.code).splitOn '=' = e.name.text ::
      match e.value with
      | none => []
      | some (expression, _) => [withoutCommas expression.text] := by
  have hname : ∀ c ∈ e.name.text, (c == '=') = false := by
    intro c hc
    rw [beq_eq_false_iff_ne]
    rintro rfl
    exact e.name.not_mem (by decide) hc
  rw [e.withoutCommas_code]
  cases e.value with
  | none => rw [List.append_nil, List.splitOn, List.splitOnP_eq_singleton hname]
  | some value =>
    have hexpression : ∀ c ∈ withoutCommas value.1.text, (c == '=') = false := by
      intro c hc
      rw [beq_eq_false_iff_ne]
      exact (value.1.plain c (List.mem_of_mem_filter hc)).2.1
    rw [List.splitOn, List.splitOnP_append_cons _ _ (by rfl), List.splitOnP_eq_singleton hname,
      List.splitOnP_eq_singleton hexpression]
    rfl

theorem setItem_new {α : Type} {key : Text} {value : α} {items : List (Text × α)}
    (h : key ∉ items.map Prod.fst) : setItem key value items = items ++ [(key, value)] := by
  induction items with
  | nil => rfl
  | cons item items ih =>
    rw [List.map_cons, List.mem_cons, not_or] at h
    rw [setItem, if_neg (Ne.symm h.1), ih h.2]
    rfl

/-- The values count on from the last, under names that are new. -/
theorem enumValues_entries {eval : Text → Except ProtocolError Int} {entries : List Entry} {next : Int}
    {items : List (Text × Int)}
    (heval : ∀ e ∈ entries, ∀ x ∈ e.value, eval (withoutCommas x.1.text) = .ok x.2)
    (hnew : (items.map Prod.fst ++ entries.map fun e => e.name.text).Nodup) :
    enumValues eval (entries.map (withoutCommas ∘ Entry.code)) next items =
      .ok (items ++ entryValues entries next) := by
  induction entries generalizing next items with
  | nil => simp [enumValues, entryValues]
  | cons e entries ih =>
    have htail : ∀ e' ∈ entries, ∀ x ∈ e'.value, eval (withoutCommas x.1.text) = .ok x.2 :=
      fun e' he' => heval e' (List.mem_cons_of_mem _ he')
    have hname : e.name.text ∉ items.map Prod.fst := by
      intro hmem
      exact (List.nodup_append.mp hnew).2.2 _ hmem _ (List.mem_cons_self ..) rfl
    have hrest : ∀ value : Int, ((items ++ [(e.name.text, value)]).map Prod.fst ++
        entries.map fun e => e.name.text).Nodup := by
      intro value
      simpa using hnew
    have hsplit := splitOn_entry e
    cases h : e.value with
    | none =>
      rw [h] at hsplit
      simp only [List.map_cons, Function.comp_apply, enumValues, hsplit, setItem_new hname,
        ih htail (hrest next), entryValues, h, List.append_assoc, List.singleton_append]
    | some value =>
      rw [h] at hsplit
      have hvalue := heval e (List.mem_cons_self ..) value h
      simp only [List.map_cons, Function.comp_apply, enumValues, hsplit, hvalue, setItem_new hname,
        ih htail (hrest value.2), entryValues, h, List.append_assoc, List.singleton_append]

theorem define_enum {eval : Text → Except ProtocolError Int} (d : Declaration) {entries : List Entry}
    (heval : ∀ e ∈ entries, ∀ x ∈ e.value, eval (withoutCommas x.1.text) = .ok x.2)
    (hdistinct : (entries.map fun e => e.name.text).Nodup) :
    define eval .enum (Body.openingCode .enum :: (entries.map Entry.code ++ [d.closingCode])) =
      .ok ⟨none, .enum (entryValues entries 0), 0,
        joinLines (Body.openingCode .enum :: (entries.map Entry.code ++ [d.closingCode]))⟩ := by
  have hlines : ((Body.openingCode .enum :: (entries.map Entry.code ++ [d.closingCode])).drop 1).dropLast =
      entries.map Entry.code := by simp
  simp only [define, hlines, List.map_map]
  rw [enumValues_entries heval (by simpa using hdistinct), List.nil_append]

/-! ### Bodies -/

theorem Member.trimmed (m : Member) : Trimmed m.code := by
  refine ⟨by simp [Member.code, m.type.nonempty], Member.first_space, ?_⟩
  have : m.code = (m.type.text ++ m.gap.text ++ m.name.text ++ m.arrayText) ++ [';'] := by
    simp [Member.code]
  rw [this, List.getLast?_concat]
  rintro c ⟨⟩
  decide

theorem last_append {s t : Text} (hne : t ≠ []) (h : ∀ c ∈ t.getLast?, isSpace c = false) :
    ∀ c ∈ (s ++ t).getLast?, isSpace c = false := by
  rwa [List.getLast?_append_of_ne_nil _ hne]

theorem Entry.trimmed (e : Entry) : Trimmed e.code := by
  refine ⟨by simp [Entry.code, e.name.nonempty], Member.first_space, ?_⟩
  cases hcomma : e.comma with
  | true =>
    rw [Entry.code, hcomma, ← List.append_assoc]
    exact last_append (List.cons_ne_nil _ _) (by rintro c ⟨⟩; decide)
  | false =>
    simp only [Entry.code, hcomma, Bool.false_eq_true, if_false, List.append_nil]
    cases h : e.value with
    | none =>
      simp only [Entry.valueText, h, List.append_nil]
      exact fun c hc => e.name.not_space (List.mem_of_getLast? hc)
    | some value =>
      simp only [Entry.valueText, h]
      rw [← List.append_assoc]
      exact last_append value.1.nonempty value.1.last

theorem Entry.code_chars (e : Entry) : ∀ c ∈ e.code, c ≠ '{' ∧ c ≠ '}' ∧ c ≠ '/' := by
  intro c hc
  simp only [Entry.code, List.mem_append] at hc
  rcases hc with hc | hc | hc
  · refine ⟨?_, ?_, ?_⟩ <;> rintro rfl <;> exact e.name.not_mem (by decide) hc
  · cases h : e.value with
    | none => simp [Entry.valueText, h] at hc
    | some value =>
      simp only [Entry.valueText, h, List.mem_append] at hc
      rcases hc with hc | hc
      · exact (by decide : ∀ c ∈ [' ', '=', ' '], c ≠ '{' ∧ c ≠ '}' ∧ c ≠ '/') c hc
      · have := value.1.plain c hc
        exact ⟨this.2.2.1, this.2.2.2.1, this.1⟩
  · cases hcomma : e.comma with
    | true =>
      simp only [hcomma, if_true, List.mem_singleton] at hc
      rw [hc]
      decide
    | false => simp [hcomma] at hc

section
variable {eval : Text → Except ProtocolError Int} {r : Reader}

theorem readLine_item (l : Layout) {code : Text} (hcode : Trimmed code)
    (hchars : ∀ c ∈ code, c ≠ '{' ∧ c ≠ '}' ∧ c ≠ '/') :
    readLine eval (l.line code) r = .ok { r with lines := r.lines ++ [code] } := by
  have hstart : '{' ∉ code := fun h => (hchars _ h).1 rfl
  have hend : '}' ∉ code := fun h => (hchars _ h).2.1 rfl
  have hslash : '/' ∉ code := fun h => (hchars _ h).2.2 rfl
  rw [readLine_code (l.noBrace hstart) (l.strip_line hslash hcode) hend, if_neg hcode.nonempty]

theorem readLines_body {ι : Type} {code : ι → Text} (hcode : ∀ x, Trimmed (code x))
    (hchars : ∀ x, ∀ c ∈ code x, c ≠ '{' ∧ c ≠ '}' ∧ c ≠ '/') (body : List (BodyLine ι))
    (rest : List Text) :
    readLines eval (body.map (BodyLine.text code) ++ rest) r =
      readLines eval rest { r with lines := r.lines ++ (body.filterMap BodyLine.item?).map code } := by
  induction body generalizing r with
  | nil => simp
  | cons line body ih =>
    rw [List.map_cons, List.cons_append, readLines]
    cases line with
    | item layout x =>
      simp only [BodyLine.text, readLine_item layout (hcode x) (hchars x), ih]
      simp [BodyLine.item?]
    | remark remark =>
      simp only [BodyLine.text, readLine_remark, ih]
      rfl

theorem Body.readLines (b : Body) (rest : List Text) :
    CacheProtocol.readLines eval (b.lines ++ rest) r =
      CacheProtocol.readLines eval rest { r with lines := r.lines ++ b.codes } := by
  cases b with
  | struct lines =>
    exact readLines_body Member.trimmed (fun m c hc => (m.code_chars c hc).2) lines rest
  | enum lines distinct => exact readLines_body Entry.trimmed Entry.code_chars lines rest

theorem Declaration.define {d : Declaration} (heval : d.Evaluates eval) :
    define eval d.body.kind d.codes = .ok d.definition := by
  obtain ⟨name, body, opening, closing⟩ := d
  cases body with
  | struct lines => exact define_struct eval _ _
  | enum lines distinct => exact define_enum _ heval distinct

theorem readLines_declaration {d : Declaration} (heval : d.Evaluates eval) (rest : List Text) :
    readLines eval (d.lines ++ rest) r = readLines eval rest
      ⟨d.codes, some d.body.kind, setItem d.name.text d.definition r.definitions⟩ := by
  have hdefine : define eval d.body.kind ([Body.openingCode d.body.kind] ++ d.body.codes ++ [d.closingCode]) =
      .ok d.definition := d.define heval
  rw [Declaration.lines, List.cons_append, readLines, readLine_opening, List.append_assoc]
  simp only [d.body.readLines, List.cons_append, List.nil_append, readLines]
  rw [readLine_closing d rfl hdefine]
  simp [Declaration.codes]

theorem readLines_passages (passages : List Passage)
    (heval : ∀ d ∈ passages.filterMap Passage.declaration?, d.Evaluates eval)
    (hnew : (r.definitions.map Prod.fst ++
      (passages.filterMap Passage.declaration?).map fun d => d.name.text).Nodup) :
    (readLines eval (passages.flatMap Passage.lines) r).map Reader.definitions =
      .ok (r.definitions ++
        (passages.filterMap Passage.declaration?).map fun d => (d.name.text, d.definition)) := by
  induction passages generalizing r with
  | nil => simp [readLines, Except.map]
  | cons passage passages ih =>
    rw [List.flatMap_cons]
    cases passage with
    | other line hstart hend =>
      obtain ⟨lines, hline⟩ : ∃ lines, readLine eval line r = .ok { r with lines := lines } :=
        readLine_other hstart hend
      simp only [Passage.lines, List.singleton_append, readLines, hline]
      exact ih heval hnew
    | declaration d =>
      have hname : d.name.text ∉ r.definitions.map Prod.fst := by
        intro hmem
        exact (List.nodup_append.mp hnew).2.2 _ hmem _ (List.mem_cons_self ..) rfl
      have hd : d.Evaluates eval := heval d (List.mem_cons_self ..)
      rw [Passage.lines, readLines_declaration hd, setItem_new hname,
        ih (fun d' hd' => heval d' (List.mem_cons_of_mem _ hd')) (by simpa [Passage.declaration?] using hnew)]
      simp [Passage.declaration?]

end

/-- The client gets out of the header what its declarations say, however they are
laid out and whatever stands between them. -/
theorem definitions_read (eval : Text → Except ProtocolError Int) (passages : List Passage)
    (heval : ∀ d ∈ passages.filterMap Passage.declaration?, d.Evaluates eval)
    (hnames : ((passages.filterMap Passage.declaration?).map fun d => d.name.text).Nodup) :
    definitions eval (passages.flatMap Passage.lines) =
      .ok ((passages.filterMap Passage.declaration?).map fun d => (d.name.text, d.definition)) := by
  rw [definitions, readLines_passages passages heval (by simpa using hnames), List.nil_append]

/-! ### The structures of cache_protocol.h -/

def PackType.identifier : PackType → Identifier
  | .uint8 => ⟨"uint8_t".toList, by decide, by decide⟩
  | .uint16 => ⟨"uint16_t".toList, by decide, by decide⟩
  | .uint32 => ⟨"uint32_t".toList, by decide, by decide⟩

def PackType.format : PackType → Char
  | .uint8 => 'B'
  | .uint16 => 'H'
  | .uint32 => 'I'

theorem PackType.known (t : PackType) :
    typesDict.lookup (PackType.identifier t).text = some (PackType.format t) := by
  cases t <;> decide

-- the end of a line without a comment
def lineEnd : Remark := ⟨['\n'], by decide, by decide⟩

def flush : Layout := ⟨⟨[], by decide⟩, lineEnd⟩

def indented : Layout := ⟨⟨[' ', ' '], by decide⟩, lineEnd⟩

def member (type : PackType) (name : Identifier) : BodyLine Member :=
  .item indented ⟨PackType.identifier type, PackType.format type, PackType.known type,
    ⟨[' '], by decide⟩, by decide, name, none⟩

def keySizeName : Identifier := ⟨"key_size".toList, by decide, by decide⟩

def valueSizeName : Identifier := ⟨"value_size".toList, by decide, by decide⟩

/-- From request_flag_t to the end of the packed structures that the client fills. -/
def protocolHeader : List Passage :=
  [.declaration ⟨⟨"request_flag".toList, by decide, by decide⟩,
      .enum [
        .item indented ⟨⟨"REQUEST_FLAG__NONE".toList, by decide, by decide⟩,
          some (⟨['0'], by decide, by decide, by decide⟩, 0), true⟩,
        .item indented ⟨⟨"REQUEST_FLAG__KEEP_ALIVE".toList, by decide, by decide⟩,
          some (⟨"(1 << 0)".toList, by decide, by decide, by decide⟩, 1), true⟩] (by decide),
      flush, flush⟩,
    .other ['\n'] (by decide) (by decide),
    .other "#pragma pack(1)\n".toList (by decide) (by decide),
    .declaration ⟨⟨"request_header".toList, by decide, by decide⟩,
      .struct [
        member .uint16 ⟨"version".toList, by decide, by decide⟩,
        member .uint8 ⟨"flags".toList, by decide, by decide⟩,
        member .uint8 ⟨"type".toList, by decide, by decide⟩], flush, flush⟩,
    .other ['\n'] (by decide) (by decide),
    .declaration ⟨⟨"key_arguments".toList, by decide, by decide⟩,
      .struct [member .uint16 keySizeName], flush, flush⟩,
    .other ['\n'] (by decide) (by decide),
    .declaration ⟨⟨"key_value_arguments".toList, by decide, by decide⟩,
      .struct [member .uint16 keySizeName, member .uint32 valueSizeName], flush, flush⟩,
    .other ['\n'] (by decide) (by decide),
    .declaration ⟨⟨"value_arguments".toList, by decide, by decide⟩,
      .struct [member .uint32 valueSizeName], flush, flush⟩,
    .other "#pragma pack()\n".toList (by decide) (by decide)]

-- `eval` on the two expressions of request_flag_t
def evalFlag (expression : Text) : Except ProtocolError Int :=
  if expression = ['0'] then .ok 0
  else if expression = "(1<<0)".toList then .ok 1
  else .error .evalError

/-- The formats with which the client packs its requests are those of the header. -/
theorem definitions_read_header :
    (definitions evalFlag (protocolHeader.flatMap Passage.lines)).map
        (List.map fun d => (d.1, d.2.packFormat, d.2.size)) =
      .ok [("request_flag".toList, none, 0),
        ("request_header".toList, some (packFormat ++ requestHeader.map PackType.format),
          CacheServer.structSize requestHeader),
        ("key_arguments".toList, some (packFormat ++ keyArguments.map PackType.format),
          CacheServer.structSize keyArguments),
        ("key_value_arguments".toList, some (packFormat ++ keyValueArguments.map PackType.format),
          CacheServer.structSize keyValueArguments),
        ("value_arguments".toList, some (packFormat ++ valueArguments.map PackType.format),
          CacheServer.structSize valueArguments)] := by
  have heval : ∀ d ∈ protocolHeader.filterMap Passage.declaration?, d.Evaluates evalFlag := by
    intro d hd
    simp only [protocolHeader, Passage.declaration?, List.filterMap_cons, List.filterMap_nil,
      List.mem_cons, List.not_mem_nil, or_false] at hd
    rcases hd with rfl | rfl | rfl | rfl | rfl
    · simp only [Declaration.Evaluates, BodyLine.item?, List.filterMap_cons, List.filterMap_nil]
      intro e he x hx
      rcases List.mem_cons.mp he with rfl | he
      · obtain rfl := Option.some.inj hx
        decide
      · obtain rfl := List.mem_singleton.mp he
        obtain rfl := Option.some.inj hx
        decide
    all_goals exact trivial
  have hnames : ((protocolHeader.filterMap Passage.declaration?).map fun d => d.name.text).Nodup := by
    decide
  rw [definitions_read evalFlag protocolHeader heval hnames]
  rfl

end CacheServer.CacheProtocol
