import TreeImage.FileSystem.Calls
import TreeImage.Ignore.Pattern
import TreeImage.Manifest.Entry
import TreeImage.Pack.Error
import TreeImage.Text.Blank

set_option autoImplicit false

/-! # Ignore rules

An ignore file has one rule a line. A number sign starts a comment, an exclamation mark includes again
what an earlier rule excluded, a final slash restricts a rule to directories. A pattern without an inner
slash is matched against the name of an entry at any depth, any other against the whole path from the
source root. The last rule that matches decides. -/

namespace TreeImage

/-! ## One rule -/

/-- A line of an ignore file. -/
structure Rule where
  pattern : Pattern
  negated : Bool
  directoryOnly : Bool
  anchored : Bool
  deriving DecidableEq, Repr

/-- Whether a rule is about the entry at `path`. -/
def Rule.applies (r : Rule) (path : String) (isDirectory : Bool) : Bool :=
  if r.directoryOnly && !isDirectory then false
  else if r.anchored then r.pattern.covers path.toList
  else r.pattern.covers (lastSegment path).toList

/-- The characters after a leading `mark`, if there is one. -/
def afterMark? (mark : Char) : List Char → Option (List Char)
  | c :: cs => if c = mark then some cs else none
  | [] => none

/-- The characters before a final slash, if there is one. -/
def beforeFinalSlash? (cs : List Char) : Option (List Char) :=
  if cs.getLast? = some '/' then some cs.dropLast else none

/-- Take away the backslash that keeps a number sign or an exclamation mark from its meaning. -/
def unescape (cs : List Char) : List Char :=
  match cs with
  | '\\' :: c :: rest => if c = '#' ∨ c = '!' then c :: rest else cs
  | _ => cs

/-- The parts of a line: the pattern text and the marks around it. -/
structure RuleLine where
  text : List Char
  negated : Bool
  directoryOnly : Bool
  rooted : Bool
  deriving DecidableEq, Repr

/-- Take the marks off a line that is no comment. -/
def RuleLine.ofLine (line : List Char) : RuleLine :=
  let body := (afterMark? '!' line).getD line
  let inner := unescape body
  let unslashed := (beforeFinalSlash? inner).getD inner
  { text := (afterMark? '/' unslashed).getD unslashed
    negated := (afterMark? '!' line).isSome
    directoryOnly := (beforeFinalSlash? inner).isSome
    rooted := (afterMark? '/' unslashed).isSome }

/-- Read one line; comments and lines without a pattern hold no rule. `origin` is the file they are from,
    for the wording of errors. -/
def Rule.ofLine? (origin : Path) (line : List Char) : Except PackError (Option Rule) :=
  let line := trimEnd line
  if line = [] ∨ line.head? = some '#' then .ok none
  else
    let parts := RuleLine.ofLine line
    if parts.text = [] then .ok none
    else match Pattern.parse parts.text with
      | .error e => .error (.ignorePattern origin (String.ofList parts.text) e)
      | .ok pattern => .ok (some
          { pattern := pattern
            negated := parts.negated
            directoryOnly := parts.directoryOnly
            anchored := parts.rooted || parts.text.contains '/' })

/-! ## All rules -/

/-- The rules of an ignore file, in order. -/
structure IgnoreRules where
  rules : List Rule
  deriving DecidableEq, Repr, Inhabited

namespace IgnoreRules

/-- No rules. -/
def empty : IgnoreRules := ⟨[]⟩

/-- Whether there are no rules. -/
def isEmpty (r : IgnoreRules) : Bool := r.rules.isEmpty

/-- Read lines in order, up to the first that holds no pattern where one is due. -/
def ofLines (origin : Path) : List (List Char) → Except PackError (List Rule)
  | [] => .ok []
  | line :: rest =>
    match Rule.ofLine? origin line with
    | .error e => .error e
    | .ok rule? =>
      match ofLines origin rest with
      | .error e => .error e
      | .ok rules => .ok (rule?.toList ++ rules)

/-- Read the text of an ignore file. -/
def parse (origin : Path) (text : String) : Except PackError IgnoreRules :=
  (ofLines origin (segments '\n' text.toList)).map IgnoreRules.mk

/-- The decision of the last rule that applies: whether it excludes; none if no rule applies. -/
def decide? (r : IgnoreRules) (path : String) (isDirectory : Bool) : Option Bool :=
  (r.rules.reverse.find? (·.applies path isDirectory)).map (!·.negated)

/-- Whether the entry at `path` is excluded. -/
def isIgnored (r : IgnoreRules) (path : String) (isDirectory : Bool) : Bool :=
  (r.decide? path isDirectory).getD false

/-- Read an ignore file; none if there is no such file. -/
def load (fs : FileSystem) (file : Path) : Except PackError (Option IgnoreRules) :=
  match fs.read file with
  | .error .notFound => .ok none
  | .error e => .error (.read file e)
  | .ok content =>
    match text? content with
    | none => .error (.read file .invalidUtf8)
    | some text => (parse file text).map some

end IgnoreRules

end TreeImage
