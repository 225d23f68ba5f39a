import CacheServer.Model.CacheProtocol

/-!
# The text of a protocol

What cache_protocol.h may hold, as its authors mean it: packed structures whose
members have types of `typesDict` that are one word, enums whose entries count on
from the last value, and anything else without braces in between. Indentation,
comments behind `//` and empty lines are part of the text, not of what it
declares. A type of several words is read as its last one, which `typesDict` does
not know.
-/

namespace CacheServer.CacheProtocol

-- the characters of a text are checked one by one, not all there are
instance (priority := 10000) decidableText (p : Char → Prop) [DecidablePred p] (s : Text) :
    Decidable (∀ c ∈ s, p c) := List.decidableBAll p s

instance (priority := 10000) decidableEnd (p : Char → Prop) [DecidablePred p] (o : Option Char) :
    Decidable (∀ c ∈ o, p c) := Option.decidableForallMem o

/-! ### Pieces of a line -/

structure Identifier where
  text : Text
  nonempty : text ≠ []
  isWord : ∀ c ∈ text, isWord c = true

/-- Blanks within a line. -/
structure Blanks where
  text : Text
  blank : ∀ c ∈ text, c = ' ' ∨ c = '\t'

/-- The end of a line, after its code: blanks and a comment. -/
structure Remark where
  text : Text
  noBrace : '{' ∉ text
  blank : ∀ c ∈ beforeComment text, isSpace c = true

/-- What the members and entries of a body are laid out as. -/
structure Layout where
  indent : Blanks
  remark : Remark

def Layout.line (l : Layout) (code : Text) : Text := l.indent.text ++ (code ++ l.remark.text)

/-! ### Members of a structure -/

structure Member where
  type : Identifier
  format : Char
  known : typesDict.lookup type.text = some format
  gap : Blanks
  gapNonempty : gap.text ≠ []
  name : Identifier
  /-- The elements of an array. -/
  arrayLength : Option Nat

namespace Member

def arrayText (m : Member) : Text :=
  match m.arrayLength with
  | none => []
  | some length => ['['] ++ (Nat.toDigits 10 length ++ [']'])

def code (m : Member) : Text := m.type.text ++ (m.gap.text ++ (m.name.text ++ (m.arrayText ++ [';'])))

def length (m : Member) : Nat := m.arrayLength.getD 1

/-- The bytes of the member in a packed structure. -/
def size (m : Member) : Nat := m.length * formatSize m.format

end Member

/-! ### Entries of an enum -/

/-- The expression of a value. -/
structure Expression where
  text : Text
  nonempty : text ≠ []
  plain : ∀ c ∈ text, c ≠ '/' ∧ c ≠ '=' ∧ c ≠ '{' ∧ c ≠ '}' ∧ (isSpace c = true → c = ' ')
  last : ∀ c ∈ text.getLast?, isSpace c = false

structure Entry where
  name : Identifier
  /-- The expression and what it stands for. -/
  value : Option (Expression × Int)
  comma : Bool

namespace Entry

def valueText (e : Entry) : Text :=
  match e.value with
  | none => []
  | some (expression, _) => [' ', '=', ' '] ++ expression.text

def code (e : Entry) : Text := e.name.text ++ (e.valueText ++ if e.comma then [','] else [])

end Entry

/-- An entry without a value counts on from the one before. -/
def entryValues : List Entry → Int → List (Text × Int)
  | [], _ => []
  | e :: entries, next =>
    let value := match e.value with
      | some (_, value) => value
      | none => next
    (e.name.text, value) :: entryValues entries (value + 1)

/-! ### Declarations -/

/-- A line of a body: a member or an entry, or nothing but a remark. -/
inductive BodyLine (ι : Type) where
  | item (layout : Layout) (what : ι)
  | remark (remark : Remark)

namespace BodyLine
variable {ι : Type}

def text (code : ι → Text) : BodyLine ι → Text
  | .item layout x => layout.line (code x)
  | .remark r => r.text

def item? : BodyLine ι → Option ι
  | .item _ x => some x
  | .remark _ => none

end BodyLine

inductive Body where
  | struct (lines : List (BodyLine Member))
  | enum (lines : List (BodyLine Entry))
    (distinct : ((lines.filterMap BodyLine.item?).map fun e => e.name.text).Nodup)

namespace Body

def kind : Body → Kind
  | .struct _ => .struct
  | .enum _ _ => .enum

def lines : Body → List Text
  | .struct lines => lines.map (BodyLine.text Member.code)
  | .enum lines _ => lines.map (BodyLine.text Entry.code)

/-- The code of the lines that have some. -/
def codes : Body → List Text
  | .struct lines => (lines.filterMap BodyLine.item?).map Member.code
  | .enum lines _ => (lines.filterMap BodyLine.item?).map Entry.code

def openingCode : Kind → Text
  | .struct => "typedef struct \x7b".toList
  | .enum => "typedef enum \x7b".toList

end Body

structure Declaration where
  name : Identifier
  body : Body
  opening : Layout
  closing : Layout

namespace Declaration

def closingCode (d : Declaration) : Text := ['}', ' '] ++ (d.name.text ++ ['_', 't', ';'])

def lines (d : Declaration) : List Text :=
  d.opening.line (Body.openingCode d.body.kind) :: (d.body.lines ++ [d.closing.line d.closingCode])

def codes (d : Declaration) : List Text :=
  Body.openingCode d.body.kind :: (d.body.codes ++ [d.closingCode])

/-- What the declaration says: the members in their order with their lengths, the
format and the size of the packed structure; the values of the entries. -/
def definition (d : Declaration) : Definition :=
  match d.body with
  | .struct lines =>
    let members := lines.filterMap BodyLine.item?
    ⟨some (packFormat ++ members.flatMap fun m => List.replicate m.length m.format),
      .struct (members.map fun m => (m.name.text, m.length)),
      (members.map Member.size).sum, joinLines d.codes⟩
  | .enum lines _ =>
    ⟨none, .enum (entryValues (lines.filterMap BodyLine.item?) 0), 0, joinLines d.codes⟩

/-- `eval` gives the expressions the values they stand for. -/
def Evaluates (eval : Text → Except ProtocolError Int) (d : Declaration) : Prop :=
  match d.body with
  | .struct _ => True
  | .enum lines _ => ∀ e ∈ lines.filterMap BodyLine.item?, ∀ x ∈ e.value,
      eval (withoutCommas x.1.text) = .ok x.2

end Declaration

/-! ### The header -/

/-- A declaration, or a line between declarations. -/
inductive Passage where
  | declaration (d : Declaration)
  | other (line : Text) (noStart : '{' ∉ line) (noEnd : '}' ∉ beforeComment line)

namespace Passage

def lines : Passage → List Text
  | .declaration d => d.lines
  | .other line _ _ => [line]

def declaration? : Passage → Option Declaration
  | .declaration d => some d
  | .other _ _ _ => none

end Passage

end CacheServer.CacheProtocol
