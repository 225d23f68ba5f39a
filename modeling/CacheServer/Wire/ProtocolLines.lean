import CacheServer.Wire.ProtocolText

/-!
# Reading the lines of a protocol

What one round of the loop over the header makes of each kind of line: the
opening of a declaration, a member or an entry, a remark, the closing, and a line
between declarations.
-/

namespace CacheServer.CacheProtocol
open Pattern

/-! ### Code and remarks -/

/-- A code that `strip` leaves as it is. -/
structure Trimmed (code : Text) : Prop where
  nonempty : code ≠ []
  first : ∀ c ∈ code.head?, isSpace c = false
  last : ∀ c ∈ code.getLast?, isSpace c = false

theorem dropWhile_first {p : Char → Bool} {s : Text} (h : ∀ c ∈ s.head?, p c = false) :
    s.dropWhile p = s := by
  cases s with
  | nil => rfl
  | cons c cs => rw [List.dropWhile_cons_of_neg (by simp [h c rfl])]

theorem strip_append {before code after : Text} (hbefore : ∀ c ∈ before, isSpace c = true)
    (hcode : Trimmed code) (hafter : ∀ c ∈ after, isSpace c = true) :
    strip (before ++ (code ++ after)) = code := by
  have hfirst : ∀ c ∈ (code ++ after).head?, isSpace c = false := by
    intro c hc
    rw [List.head?_append_of_ne_nil _ hcode.nonempty] at hc
    exact hcode.first c hc
  have hlast : ∀ c ∈ code.reverse.head?, isSpace c = false := by
    rw [List.head?_reverse]
    exact hcode.last
  rw [strip, List.dropWhile_append_of_pos hbefore, dropWhile_first hfirst, List.rdropWhile,
    List.reverse_append, List.dropWhile_append_of_pos (by simpa using hafter),
    dropWhile_first hlast, List.reverse_reverse]

theorem strip_spaces {s : Text} (h : ∀ c ∈ s, isSpace c = true) : strip s = [] := by
  have : s.dropWhile isSpace = [] := List.dropWhile_eq_nil_iff.mpr h
  rw [strip, this, List.rdropWhile_nil]

theorem strip_subset (s : Text) : strip s ⊆ s :=
  List.Subset.trans (List.rdropWhile_prefix isSpace (s.dropWhile isSpace)).subset
    (List.dropWhile_suffix isSpace).subset

theorem beforeComment_append {code rest : Text} (h : '/' ∉ code) :
    beforeComment (code ++ rest) = code ++ beforeComment rest := by
  induction code with
  | nil => rfl
  | cons c cs ih =>
    have hc : c ≠ '/' := fun e => h (e ▸ List.mem_cons_self ..)
    rw [List.cons_append, beforeComment, ih fun hmem => h (List.mem_cons_of_mem _ hmem)]
    · rfl
    · intro _ e
      exact absurd e hc

namespace Blanks
variable (b : Blanks)

theorem isSpace : ∀ c ∈ b.text, isSpace c = true := by
  intro c hc
  rcases b.blank c hc with rfl | rfl <;> rfl

theorem not_mem {c : Char} (hspace : c ≠ ' ') (htab : c ≠ '\t') : c ∉ b.text := fun hc =>
  (b.blank c hc).elim hspace htab

end Blanks

namespace Layout
variable (l : Layout) {code : Text}

theorem strip_line (hslash : '/' ∉ code) (hcode : Trimmed code) :
    strip (beforeComment (l.line code)) = code := by
  have hindent : '/' ∉ l.indent.text := l.indent.not_mem (by decide) (by decide)
  rw [line, beforeComment_append hindent, beforeComment_append hslash]
  exact strip_append l.indent.isSpace hcode l.remark.blank

theorem noBrace (hcode : '{' ∉ code) : '{' ∉ l.line code := by
  have hindent : '{' ∉ l.indent.text := l.indent.not_mem (by decide) (by decide)
  simp [line, hindent, hcode, l.remark.noBrace]

end Layout

/-! ### The patterns of a declaration -/

theorem start_none {line : Text} (h : '{' ∉ line) : startPattern.search line = none :=
  search_none fun _ hzs => seq_none fun _ hm =>
    word_none (by decide : '{' ∈ [' ', '{']) fun hmem =>
      h (hzs.subset ((rest_suffix hm).subset hmem))

theorem end_none {line : Text} (h : '}' ∉ line) : endPattern.search line = none :=
  search_none fun _ hzs => seq_none_left <|
    word_none (by decide : '}' ∈ ['}', ' ']) fun hmem => h (hzs.subset hmem)

/-- The words by which START_PATTERN tells the kinds apart. -/
def Kind.text : Kind → Text
  | .struct => "typedef struct".toList
  | .enum => "typedef enum".toList

theorem openingCode_eq (k : Kind) : Body.openingCode k = k.text ++ [' ', '{'] := by
  cases k <;> rfl

theorem enum_none (rest : Text) : (word Kind.enum.text).ways (Kind.struct.text ++ rest) = [] := by
  change (word "typedef enum".toList).ways ("typedef struct".toList ++ rest) = []
  simp [word, ways]

theorem start_opening (k : Kind) (l : Layout) :
    (startPattern.search (l.line (Body.openingCode k))).map Match.groups = some [k.text] := by
  have hindent : ∀ c ∈ l.indent.text, ∀ zs, startPattern.ways (c :: zs) = [] := by
    intro c hc zs
    rcases l.indent.blank c hc with rfl | rfl <;> rfl
  have hkind : ((Pattern.either (word Kind.enum.text) (word Kind.struct.text)).ways
      (k.text ++ ([' ', '{'] ++ l.remark.text))).head? = some ⟨k.text, [], [' ', '{'] ++ l.remark.text⟩ := by
    cases k with
    | enum => exact head_either head_word
    | struct => exact head_either_right (enum_none _) head_word
  have hsearch : startPattern.search (k.text ++ ([' ', '{'] ++ l.remark.text)) = some _ :=
    search_start (head_seq (head_group hkind) head_word)
  rw [Layout.line, search_append hindent, openingCode_eq, List.append_assoc, hsearch]
  rfl

theorem end_closing (d : Declaration) :
    (endPattern.search d.closingCode).map Match.groups = some [d.name.text] := by
  have hname : ∀ c ∈ d.name.text, decide (c ≠ '\n') = true := by
    intro c hc
    rw [decide_eq_true_eq]
    rintro rfl
    exact absurd (d.name.isWord _ hc) (by decide)
  -- the name runs to the end of the line and gives back "_t;"
  have hback : ((seq (group (many fun c => c ≠ '\n')) (word ['_', 't', ';'])).ways
      (d.name.text ++ ['_', 't', ';'])).head? =
        some ⟨d.name.text ++ ['_', 't', ';'], [d.name.text], []⟩ :=
    head_run_seq (n := ⟨['_', 't', ';'], [], []⟩) hname (by decide) rfl
  have hsearch : endPattern.search d.closingCode = some _ := search_start (head_seq head_word hback)
  rw [hsearch]
  rfl

/-! ### The codes -/

namespace Identifier
variable (i : Identifier)

theorem not_mem {c : Char} (h : CacheProtocol.isWord c = false) : c ∉ i.text := fun hc => by
  rw [i.isWord c hc] at h
  cases h

theorem not_space {c : Char} (hc : c ∈ i.text) : isSpace c = false := by
  have hword := i.isWord c hc
  by_contra hspace
  have hle : c.toNat ≤ 32 := by
    simp only [isSpace, Bool.not_eq_false, Bool.or_eq_true, Bool.and_eq_true, decide_eq_true_eq] at hspace
    rcases hspace with (rfl | ⟨-, h⟩) | ⟨-, h⟩
    · decide
    · omega
    · omega
  rw [CacheProtocol.isWord, Bool.or_eq_true, decide_eq_true_eq] at hword
  rcases hword with hword | rfl
  · have hranges : ((decide (c.val ≥ 'A'.val ∧ c.val ≤ 'Z'.val) ||
        (decide (c.val ≥ 'a'.val) && decide (c.val ≤ 'z'.val))) ||
        (decide (c.val ≥ '0'.val) && decide (c.val ≤ '9'.val))) = true := hword
    simp only [Bool.or_eq_true, Bool.and_eq_true, decide_eq_true_eq, ge_iff_le,
      UInt32.le_iff_toNat_le] at hranges
    change (65 ≤ c.toNat ∧ c.toNat ≤ 90 ∨ 97 ≤ c.toNat ∧ c.toNat ≤ 122) ∨
      48 ≤ c.toNat ∧ c.toNat ≤ 57 at hranges
    omega
  · exact absurd hle (by decide)

end Identifier

/-! ### One round of the loop -/

variable {eval : Text → Except ProtocolError Int} {line code : Text} {r : Reader}

theorem readLine_code (hstart : '{' ∉ line) (hcode : strip (beforeComment line) = code)
    (hend : '}' ∉ code) :
    readLine eval line r = .ok { r with lines := if code = [] then r.lines else r.lines ++ [code] } := by
  simp only [readLine, start_none hstart, hcode, end_none hend, Option.map_none]
  split <;> rfl

theorem readLine_remark (remark : Remark) : readLine eval remark.text r = .ok r := by
  rw [readLine_code remark.noBrace (strip_spaces remark.blank) (by simp)]
  rfl

theorem openingCode_trimmed (k : Kind) : Trimmed (Body.openingCode k) := by
  cases k <;> exact ⟨by decide, by decide, by decide⟩

theorem readLine_opening (k : Kind) (l : Layout) :
    readLine eval (l.line (Body.openingCode k)) r =
      .ok { r with kind := some k, lines := [Body.openingCode k] } := by
  have hslash : '/' ∉ Body.openingCode k := by cases k <;> decide
  have hend : '}' ∉ Body.openingCode k := by cases k <;> decide
  have hne : Body.openingCode k ≠ [] := by cases k <;> decide
  have hkind : (if k.text = "typedef enum".toList then Kind.enum else Kind.struct) = k := by
    cases k <;> rfl
  simp only [readLine, start_opening, l.strip_line hslash (openingCode_trimmed k), end_none hend,
    Option.map_none, hkind, if_neg hne, List.nil_append]

theorem closingCode_trimmed (d : Declaration) : Trimmed d.closingCode := by
  refine ⟨by simp [Declaration.closingCode], by simp [Declaration.closingCode]; decide, ?_⟩
  have : d.closingCode = (['}', ' '] ++ d.name.text ++ ['_', 't']) ++ [';'] := by
    simp [Declaration.closingCode]
  rw [this, List.getLast?_concat]
  rintro c ⟨⟩
  decide

theorem readLine_closing (d : Declaration) {k : Kind} {definition : Definition} (hkind : r.kind = some k)
    (hdefine : define eval k (r.lines ++ [d.closingCode]) = .ok definition) :
    readLine eval (d.closing.line d.closingCode) r =
      .ok { r with lines := r.lines ++ [d.closingCode]
                   definitions := setItem d.name.text definition r.definitions } := by
  have hslash : '/' ∉ d.closingCode := by
    simp [Declaration.closingCode, d.name.not_mem (show CacheProtocol.isWord '/' = false by decide)]
  have hstart : '{' ∉ d.closingCode := by
    simp [Declaration.closingCode, d.name.not_mem (show CacheProtocol.isWord '{' = false by decide)]
  simp only [readLine, start_none (d.closing.noBrace hstart), Option.map_none,
    d.closing.strip_line hslash (closingCode_trimmed d), end_closing,
    if_neg (closingCode_trimmed d).nonempty, hkind, hdefine]

theorem readLine_other (hstart : '{' ∉ line) (hend : '}' ∉ beforeComment line) :
    ∃ lines, readLine eval line r = .ok { r with lines := lines } :=
  ⟨_, readLine_code hstart rfl fun h => hend (strip_subset _ h)⟩

end CacheServer.CacheProtocol
