import CacheServer.Model.EntryHeader

/-!
# The configuration (configuration.h, configuration.c)

The values are pointers, to a default or to a block that `parse_value` took from
malloc. A block that is not live is not in `blocks`; `mallocs` answers each
malloc in turn. A string is the list of its bytes in front of the NUL.
-/

namespace CacheServer.Configuration

-- configuration_type_t
inductive ConfigurationType where
  | acceptPeriodMicros | connectionActiveLimit | connectionBacklogLimit | connectionTimeoutMicros
  | entryCapacityBytes | entryExpiryMicros | ipAddress | port
  deriving DecidableEq, Repr

-- data_type_t
inductive DataType where
  | int64 | string
  deriving DecidableEq, Repr

-- data_types
def dataType : ConfigurationType → DataType
  | .ipAddress => .string
  | _ => .int64

abbrev CString := List UInt8

def literal (s : String) : CString := s.toUTF8.toList

/-- What a block holds. -/
inductive Content where
  | int64 (value : Int)
  | string (value : CString)
  deriving DecidableEq, Repr

-- default_values
def defaultValue : ConfigurationType → Content
  | .acceptPeriodMicros => .int64 1000
  | .connectionActiveLimit => .int64 16
  | .connectionBacklogLimit => .int64 32
  | .connectionTimeoutMicros => .int64 15000
  | .entryCapacityBytes => .int64 (1024 * 1024)
  | .entryExpiryMicros => .int64 3600000
  | .ipAddress => .string (literal "127.0.0.1")
  | .port => .int64 8888

/-- Where a value lies. -/
inductive Place where
  | block (id : Nat)
  | default (type : ConfigurationType)
  deriving DecidableEq, Repr

/-- configuration_context_t with the blocks of malloc. -/
structure Context where
  values : ConfigurationType → Option Place
  blocks : Nat → Option Content
  malloced : Nat

-- the static context is zero, and malloc has given no block
def started : Context := ⟨fun _ => none, fun _ => none, 0⟩

/-- What ends the program. -/
inductive Stop where
  | exit (status : Nat)
  | fault (fault : Fault)
  deriving DecidableEq, Repr

/-- `parse_key` -/
def parseKey (input : CString) : Except Stop ConfigurationType :=
  if input = literal "--accept-period-micros" then .ok .acceptPeriodMicros
  else if input = literal "--active-connection-limit" then .ok .connectionActiveLimit
  else if input = literal "--connection-backlog-limit" then .ok .connectionBacklogLimit
  else if input = literal "--connection-timeout-micros" then .ok .connectionTimeoutMicros
  else if input = literal "--entry-capacity-bytes" then .ok .entryCapacityBytes
  else if input = literal "--entry-expiry-micros" then .ok .entryExpiryMicros
  else if input = literal "--ip-address" then .ok .ipAddress
  else if input = literal "--port" then .ok .port
  else .error (.exit 1)

/-! ### atoll -/

-- blank, and "\t" to "\r"
def isSpace (c : UInt8) : Bool := c = 32 ∨ 9 ≤ c ∧ c ≤ 13

-- "0" to "9"
def isDigit (c : UInt8) : Bool := 48 ≤ c ∧ c ≤ 57

def digits : CString → Nat → Nat
  | [], n => n
  | c :: cs, n => if isDigit c then digits cs (n * 10 + (c.toNat - 48)) else n

/-- A number out of range is clipped, as strtoll does. -/
def clip (n : Int) : Int := max (-2 ^ 63) (min n (2 ^ 63 - 1))

-- 45 is "-" and 43 is "+"
def atoll (input : CString) : Int :=
  match input.dropWhile isSpace with
  | 45 :: cs => clip (-(digits cs 0 : Int))
  | 43 :: cs => clip (digits cs 0)
  | cs => clip (digits cs 0)

/-! ### Parsing -/

/-- What `parse_value` stores. -/
def content (input : CString) (type : ConfigurationType) : Content :=
  match dataType type with
  | .int64 => .int64 (atoll input)
  | .string => .string input

/-- `free(context.values[type])`; a default is no block of malloc. -/
def freeValue (type : ConfigurationType) (c : Context) : Except Stop Context :=
  match c.values type with
  | none => .ok c
  | some (.default _) => .error (.fault .invalidFree)
  | some (.block id) =>
    match c.blocks id with
    | none => .error (.fault .invalidFree)
    | some _ => .ok { c with blocks := fun i => if i = id then none else c.blocks i }

/-- `uint32_t size = strlen(input) + 1` -/
def stringSize (input : CString) : Nat := (input.length + 1) % 2 ^ 32

/-- The bytes that are written lie in the block. -/
def fits (input : CString) (type : ConfigurationType) : Bool :=
  match dataType type with
  | .int64 => true
  | .string => input.length + 1 ≤ stringSize input

/-- `parse_value`. The result of malloc is written through without a check, by strcpy to the end
of the input. -/
def parseValue (mallocs : Nat → Bool) (input : CString) (type : ConfigurationType) (c : Context) :
    Except Stop Context :=
  match freeValue type c with
  | .error stop => .error stop
  | .ok c =>
    if mallocs c.malloced then
      if fits input type then .ok {
        values := fun t => if t = type then some (.block c.malloced) else c.values t
        blocks := fun i => if i = c.malloced then some (content input type) else c.blocks i
        malloced := c.malloced + 1 }
      else .error (.fault .outOfBounds)
    else .error (.fault .nullPointer)

-- parse_state_t, with the type that is kept with AWAITING_VALUE
inductive ParseState where
  | awaitingKey
  | awaitingValue (type : ConfigurationType)
  deriving DecidableEq, Repr

/-- The loop of `configuration_parse` over argv[1], argv[2] and so on. -/
def parseLoop (mallocs : Nat → Bool) : List CString → ParseState → Context → Except Stop Context
  | [], _, c => .ok c
  | arg :: rest, .awaitingKey, c =>
    match parseKey arg with
    | .error stop => .error stop
    | .ok type => parseLoop mallocs rest (.awaitingValue type) c
  | arg :: rest, .awaitingValue type, c =>
    match parseValue mallocs arg type c with
    | .error stop => .error stop
    | .ok c => parseLoop mallocs rest .awaitingKey c

/-- The second loop, in which each missing value becomes its default. -/
def fillDefaults (c : Context) : Context :=
  { c with values := fun type => some ((c.values type).getD (.default type)) }

/-- `configuration_parse`, which starts with a memset of the values. -/
def configurationParse (mallocs : Nat → Bool) (args : List CString) (c : Context) :
    Except Stop Context :=
  match parseLoop mallocs args .awaitingKey { c with values := fun _ => none } with
  | .error stop => .error stop
  | .ok c => .ok (fillDefaults c)

/-! ### Reading -/

def read (c : Context) (type : ConfigurationType) : Except Stop Content :=
  match c.values type with
  | none => .error (.fault .nullPointer)
  | some (.default t) => .ok (defaultValue t)
  | some (.block id) =>
    match c.blocks id with
    | none => .error (.fault .useAfterFree)
    | some content => .ok content

/-- `configuration_get_int` -/
def configurationGetInt (c : Context) (type : ConfigurationType) : Except Stop Int :=
  match read c type with
  | .error stop => .error stop
  | .ok (.int64 value) => .ok value
  | .ok (.string _) => .error (.fault .outOfBounds)

/-- `configuration_get_string` -/
def configurationGetString (c : Context) (type : ConfigurationType) : Except Stop CString :=
  match read c type with
  | .error stop => .error stop
  | .ok (.string value) => .ok value
  | .ok (.int64 _) => .error (.fault .outOfBounds)

end CacheServer.Configuration
