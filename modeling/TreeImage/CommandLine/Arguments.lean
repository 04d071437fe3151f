import TreeImage.Bytes.Basic

set_option autoImplicit false

/-! # Reading command lines

A command declares its options (`OptionSpec`) and how many operands it takes. Arguments are read from
left to right in the usual manner: long options after two hyphens with an optional value after an equals
sign, clusters of one-letter options after one hyphen, and operands only after a lone double hyphen. The
first thing that is wrong decides the error. Arguments are byte strings, because a path may be any. -/

namespace TreeImage

/-! ## Declarations -/

/-- Why a command line is not accepted, or what it asks for instead of a run. -/
inductive UsageError
  | unknownArgument
  | argumentConflict
  | invalidValue
  | valueValidation
  | invalidUtf8
  | tooManyValues
  | missingRequired
  | help
  | version
  deriving DecidableEq, Repr

/-- What an option does. -/
inductive OptionKind
  | flag
  | value
  | help
  | version
  deriving DecidableEq, Repr

/-- An option of a command; `key` says which. Its letter is an ASCII letter. -/
structure OptionSpec (κ : Type) where
  key : κ
  letter : Option Char
  long : String
  kind : OptionKind

/-- What a command accepts. Operands come in the order of their keys; `check` says what is wrong with the
    value of an option or operand. -/
structure CommandSpec (κ : Type) where
  options : List (OptionSpec κ)
  operands : List κ
  check : κ → Bytes → Option UsageError

/-! ## Values -/

/-- What is wrong with a value where a path is due: it may not be empty. -/
def checkPath (value : Bytes) : Option UsageError :=
  if value.isEmpty then some .invalidValue else none

/-- What is wrong with a value where a text is due. -/
def checkText (value : Bytes) : Option UsageError :=
  if (text? value).isSome then none else some .invalidUtf8

/-- Whether a byte is a decimal digit. -/
def isDigitByte (b : UInt8) : Bool := 48 ≤ b && b ≤ 57

/-- The number that digits spell, with an optional plus sign before them, if it fits sixty-four bits. -/
def readNumber? (value : Bytes) : Option Nat :=
  let digits := match value with
    | 43 :: rest => rest
    | bs => bs
  if digits.isEmpty || !digits.all isDigitByte then none
  else
    let n := digits.foldl (fun n b => 10 * n + (b.toNat - 48)) 0
    if n < UInt64.size then some n else none

/-- What is wrong with a value where a number is due. -/
def checkNumber (value : Bytes) : Option UsageError :=
  if (readNumber? value).isSome then none
  else (checkText value).getD .valueValidation

/-! ## Reading -/

section

variable {κ : Type} [DecidableEq κ]

/-- Where the reading of a command line stands: what was read, newest first; an option or operand that is
    not settled yet, with its value if it came; how many operands came; and whether only operands follow. -/
structure Reading (κ : Type) where
  settled : List (κ × Bytes) := []
  unsettled : Option (κ × Option Bytes) := none
  operandCount : Nat := 0
  onlyOperands : Bool := false

namespace Reading

/-- Take in an option or operand with its value. None may be given twice. -/
def accept (r : Reading κ) (spec : CommandSpec κ) (key : κ) (value : Bytes) :
    Except UsageError (Reading κ) :=
  if r.settled.any (·.1 = key) then .error .argumentConflict
  else match spec.check key value with
    | some e => .error e
    | none => .ok { r with settled := (key, value) :: r.settled, unsettled := none }

/-- Take in what is not settled yet. An option whose value never came is at fault. -/
def settle (r : Reading κ) (spec : CommandSpec κ) : Except UsageError (Reading κ) :=
  match r.unsettled with
  | none => .ok r
  | some (_, none) => .error .invalidValue
  | some (key, some value) => r.accept spec key value

/-- Take in an option with the value that is attached to it, if any, or wait for its value. -/
def takeOption (r : Reading κ) (spec : CommandSpec κ) (o : OptionSpec κ) (attached : Option Bytes) :
    Except UsageError (Reading κ) :=
  match o.kind, attached with
  | .value, some value => do (← r.settle spec).accept spec o.key value
  | .value, none => do .ok { ← r.settle spec with unsettled := some (o.key, none) }
  | _, some _ => .error .tooManyValues
  | .flag, none => do (← r.settle spec).accept { spec with check := fun _ _ => none } o.key []
  | .help, none => do let _ ← r.settle spec; .error .help
  | .version, none => do let _ ← r.settle spec; .error .version

/-- The byte of a hyphen, which starts options. -/
def hyphen : UInt8 := 45

/-- The byte of an equals sign, which attaches a value to an option. -/
def equalsSign : UInt8 := 61

/-- A long option: its name, and a value after an equals sign. -/
def takeLong (r : Reading κ) (spec : CommandSpec κ) (body : Bytes) : Except UsageError (Reading κ) :=
  let name := body.takeWhile (· ≠ equalsSign)
  let attached := (body.dropWhile (· ≠ equalsSign)).tail?
  match spec.options.find? (utf8 ·.long == name) with
  | none => .error .unknownArgument
  | some o => r.takeOption spec o attached

/-- The value that the rest of a cluster holds; an equals sign before it does not count. -/
def clusterValue (rest : Bytes) : Option Bytes :=
  if rest.isEmpty then none
  else if rest.head? = some equalsSign then some rest.tail
  else some rest

/-- A cluster of one-letter options. The first that takes a value takes the rest of the cluster. -/
def takeCluster (spec : CommandSpec κ) : Reading κ → Bytes → Except UsageError (Reading κ)
  | r, [] => .ok r
  | r, b :: rest =>
    match spec.options.find? (fun o => o.letter.map (·.toUInt8) == some b) with
    | none => .error .unknownArgument
    | some o =>
      match o.kind with
      | .value => r.takeOption spec o (clusterValue rest)
      | _ =>
        match r.takeOption spec o none with
        | .error e => .error e
        | .ok r => takeCluster spec r rest

/-- An operand. -/
def takeOperand (r : Reading κ) (spec : CommandSpec κ) (value : Bytes) :
    Except UsageError (Reading κ) :=
  match spec.operands[r.operandCount]? with
  | none => .error .unknownArgument
  | some key => do
    let r ← r.settle spec
    .ok { r with unsettled := some (key, some value), operandCount := r.operandCount + 1 }

/-- The next argument. An option that waits for its value takes anything that is no option. -/
def take (r : Reading κ) (spec : CommandSpec κ) (argument : Bytes) : Except UsageError (Reading κ) :=
  if r.onlyOperands then r.takeOperand spec argument
  else if argument = [hyphen, hyphen] then .ok { r with onlyOperands := true }
  else if [hyphen, hyphen].isPrefixOf argument then r.takeLong spec (argument.drop 2)
  else if argument.head? = some hyphen ∧ argument ≠ [hyphen] then takeCluster spec r argument.tail
  else match r.unsettled with
    | some (key, none) => .ok { r with unsettled := some (key, some argument) }
    | _ => r.takeOperand spec argument

/-- Read arguments in order. -/
def takeAll (spec : CommandSpec κ) : Reading κ → List Bytes → Except UsageError (Reading κ)
  | r, [] => r.settle spec
  | r, argument :: rest =>
    match r.take spec argument with
    | .error e => .error e
    | .ok r => takeAll spec r rest

/-- Whether an option or operand was given. -/
def has (r : Reading κ) (key : κ) : Bool := r.settled.any (·.1 = key)

/-- The value of an option or operand. -/
def value? (r : Reading κ) (key : κ) : Option Bytes := r.settled.lookup key

end Reading

/-- Read a whole command line. -/
def CommandSpec.read (spec : CommandSpec κ) (arguments : List Bytes) :
    Except UsageError (Reading κ) := Reading.takeAll spec {} arguments

end

end TreeImage
