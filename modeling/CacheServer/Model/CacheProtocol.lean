import CacheServer.Library.Pattern
import Mathlib.Algebra.GroupWithZero.Nat
import Mathlib.Data.List.DropRight

/-!
# The protocol of the client (cache_protocol.py, c2py.py)

CacheProtocol reads the structures and enums of the protocol out of the text of
cache_protocol.h, line by line, with regular expressions. A text is the list of
its characters, all of them ASCII; `eval` is Python's. A dictionary is the list
of its items in the order in which their keys came in.
-/

namespace CacheServer.CacheProtocol
open Pattern

abbrev Text := List Char

inductive ProtocolError where
  | keyError
  | unboundLocalError
  | evalError
  deriving DecidableEq, Repr

/-! ### Python -/

-- what `strip`, `\s` and `splitlines` take for whitespace and for the end of a line
def isSpace (c : Char) : Bool :=
  c = ' ' || (9 ≤ c.toNat && c.toNat ≤ 13) || (28 ≤ c.toNat && c.toNat ≤ 31)

def isLineBreak (c : Char) : Bool := (10 ≤ c.toNat && c.toNat ≤ 13) || (28 ≤ c.toNat && c.toNat ≤ 30)

-- `[a-zA-Z0-9_]`, and `\w`
def isWord (c : Char) : Bool := c.isAlphanum || c = '_'

def strip (s : Text) : Text := (s.dropWhile isSpace).rdropWhile isSpace

/-- `splitlines`, but for an empty line within "\r\n". -/
def splitlines (s : Text) : List Text := s.splitOnP isLineBreak

/-- `'\n'.join` -/
def joinLines (lines : List Text) : Text := ['\n'].intercalate lines

/-- `int` of digits -/
def int (digits : Text) : Nat := Nat.ofDigitChars 10 digits 0

variable {α : Type}

/-- `d[key] = value` -/
def setItem (key : Text) (value : α) : List (Text × α) → List (Text × α)
  | [] => [(key, value)]
  | (k, v) :: items => if k = key then (key, value) :: items else (k, v) :: setItem key value items

/-! ### c2py.py -/

/-- `TYPE_REGEX`: `\s*([a-zA-Z0-9_]+)\s+(\w+)(?:\[(\d*)\])?;` -/
def typeRegex : Pattern Char :=
  .seq (.many isSpace) <|
  .seq (.group (.seq (.one isWord) (.many isWord))) <|
  .seq (.seq (.one isSpace) (.many isSpace)) <|
  .seq (.group (.seq (.one isWord) (.many isWord))) <|
  .seq (.either (.seq (word ['[']) (.seq (.group (.many Char.isDigit)) (word [']']))) (.absent 1)) <|
  word [';']

/-- `TYPES_DICT` -/
def typesDict : List (Text × Char) :=
  [("uint64_t".toList, 'Q'), ("uint32_t".toList, 'I'), ("uint16_t".toList, 'H'),
    ("uint8_t".toList, 'B'), ("int64_t".toList, 'q'), ("int32_t".toList, 'i'),
    ("int16_t".toList, 'h'), ("int8_t".toList, 'b'), ("char".toList, 'c'), ("bool".toList, '?'),
    ("float".toList, 'f'), ("double".toList, 'd'), ("long long int".toList, 'q'),
    ("unsigned long long int".toList, 'Q')]

-- the sizes of `struct` without alignment
def formatSize (format : Char) : Nat :=
  if format = 'Q' ∨ format = 'q' ∨ format = 'd' then 8
  else if format = 'I' ∨ format = 'i' ∨ format = 'f' then 4
  else if format = 'H' ∨ format = 'h' then 2
  else if format = 'B' ∨ format = 'b' ∨ format = 'c' ∨ format = '?' then 1
  else 0

/-- `struct.calcsize` -/
def calcsize (packFormat : Text) : Nat := (packFormat.map formatSize).sum

def structInfoLoop : List Text → List (Text × Nat) → Text →
    Except ProtocolError (List (Text × Nat) × Text)
  | [], varlist, packFormat => .ok (varlist, packFormat)
  | line :: lines, varlist, packFormat =>
    match (typeRegex.search line).map Match.groups with
    | some [vartype, varname, arrayLength] =>
      match typesDict.lookup vartype with
      | none => .error .keyError
      | some format =>
        let arrayLength := if arrayLength = [] then 1 else int arrayLength
        structInfoLoop lines (varlist ++ [(varname, arrayLength)])
          (packFormat ++ List.replicate arrayLength format)
    -- IndexError, which is passed over
    | _ => structInfoLoop lines varlist packFormat

def structInfo (cStruct alignment : Text) : Except ProtocolError (List (Text × Nat) × Text) :=
  structInfoLoop (splitlines cStruct) [] alignment

def structSize (cStruct alignment : Text) : Except ProtocolError Nat :=
  (structInfo cStruct alignment).map fun info => calcsize info.2

/-! ### cache_protocol.py -/

/-- `START_PATTERN`: `(typedef enum|typedef struct) {` -/
def startPattern : Pattern Char :=
  .seq (.group (.either (word "typedef enum".toList) (word "typedef struct".toList))) (word [' ', '{'])

/-- `END_PATTERN`: `} (.*)_t;` -/
def endPattern : Pattern Char :=
  .seq (word ['}', ' ']) <| .seq (.group (.many fun c => c ≠ '\n')) (word ['_', 't', ';'])

-- PACK_FORMAT
def packFormat : Text := ['<']

inductive Kind where
  | enum | struct
  deriving DecidableEq, Repr

inductive VariableList where
  | struct (list : List (Text × Nat))
  | enum (list : List (Text × Int))
  deriving DecidableEq, Repr

structure Definition where
  packFormat : Option Text
  variableList : VariableList
  size : Nat
  text : Text
  deriving DecidableEq, Repr

/-- `line.split('//')[0]` -/
def beforeComment : Text → Text
  | '/' :: '/' :: _ => []
  | c :: cs => c :: beforeComment cs
  | [] => []

/-- `re.sub('[ ,\n]', '', value)` -/
def withoutCommas (value : Text) : Text := value.filter fun c => ¬ (c = ' ' ∨ c = ',' ∨ c = '\n')

def enumValues (eval : Text → Except ProtocolError Int) :
    List Text → Int → List (Text × Int) → Except ProtocolError (List (Text × Int))
  | [], _, variableList => .ok variableList
  | entry :: entries, nextValue, variableList =>
    match entry.splitOn '=' with
    | name :: expression :: _ =>
      match eval expression with
      | .error error => .error error
      | .ok value => enumValues eval entries (value + 1) (setItem name value variableList)
    | name :: [] => enumValues eval entries (nextValue + 1) (setItem name nextValue variableList)
    | [] => .ok variableList

def define (eval : Text → Except ProtocolError Int) (kind : Kind) (lines : List Text) :
    Except ProtocolError Definition :=
  let text := joinLines lines
  match kind with
  | .struct =>
    match structSize text packFormat, structInfo text packFormat with
    | .ok size, .ok (variableList, packFormat) =>
      .ok ⟨some packFormat, .struct variableList, size, text⟩
    | .error error, _ => .error error
    | _, .error error => .error error
  | .enum =>
    match enumValues eval (((lines.drop 1).dropLast).map withoutCommas) 0 [] with
    | .error error => .error error
    | .ok variableList => .ok ⟨none, .enum variableList, 0, text⟩

structure Reader where
  lines : List Text
  kind : Option Kind
  definitions : List (Text × Definition)

/-- One round of the loop over the lines of the header. -/
def readLine (eval : Text → Except ProtocolError Int) (line : Text) (r : Reader) :
    Except ProtocolError Reader :=
  let r := match (startPattern.search line).map Match.groups with
    | some (start :: _) =>
      { r with kind := some (if start = "typedef enum".toList then .enum else .struct), lines := [] }
    | _ => r
  let line := strip (beforeComment line)
  let r := if line = [] then r else { r with lines := r.lines ++ [line] }
  match (endPattern.search line).map Match.groups with
  | some (name :: _) =>
    match r.kind with
    | none => .error .unboundLocalError
    | some kind =>
      match define eval kind r.lines with
      | .error error => .error error
      | .ok definition => .ok { r with definitions := setItem name definition r.definitions }
  | _ => .ok r

def readLines (eval : Text → Except ProtocolError Int) :
    List Text → Reader → Except ProtocolError Reader
  | [], r => .ok r
  | line :: lines, r =>
    match readLine eval line r with
    | .error error => .error error
    | .ok r => readLines eval lines r

/-- `CacheProtocol.__init__`, on what `readlines` gives. -/
def definitions (eval : Text → Except ProtocolError Int) (inputLines : List Text) :
    Except ProtocolError (List (Text × Definition)) :=
  (readLines eval inputLines ⟨[], none, []⟩).map Reader.definitions

end CacheServer.CacheProtocol
