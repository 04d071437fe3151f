set_option autoImplicit false

/-! # File name patterns

A pattern is read into tokens (`Pattern.parse`) and matched against a whole text. A question mark, a star
and a class match no slash; a double star, which must be a path component of its own, matches any run of
components. -/

namespace TreeImage

/-! ## Tokens -/

/-- A member of a class: one character or a range of them. -/
inductive ClassItem
  | single (c : Char)
  | range (first last : Char)
  deriving DecidableEq, Repr

/-- A piece of a pattern. -/
inductive Token
  | literal (c : Char)
  | anyChar
  | anySequence
  | anyComponents
  | oneOf (items : List ClassItem)
  | noneOf (items : List ClassItem)
  deriving DecidableEq, Repr

/-- Why a text is no pattern. -/
inductive PatternFault
  | wildcards
  | recursiveWildcards
  | invalidRange
  deriving DecidableEq, Repr

/-- Where a text stops being a pattern, counted in characters, and why. -/
structure PatternError where
  position : Nat
  fault : PatternFault
  deriving DecidableEq, Repr

/-- The wording of a fault. -/
def PatternFault.message : PatternFault → String
  | wildcards => "wildcards are either regular \x60*\x60 or recursive \x60**\x60"
  | recursiveWildcards => "recursive wildcards must form a single path component"
  | invalidRange => "invalid range pattern"

/-- The wording of an error. -/
def PatternError.message (e : PatternError) : String :=
  s!"Pattern syntax error near position {e.position}: {e.fault.message}"

/-! ## Reading -/

/-- A pattern. -/
structure Pattern where
  tokens : List Token
  deriving DecidableEq, Repr

namespace Pattern

/-- The members of a class, from left to right. -/
def classItems : List Char → List ClassItem
  | first :: '-' :: last :: rest => .range first last :: classItems rest
  | c :: rest => .single c :: classItems rest
  | [] => []

/-- The characters of a class and what follows its closing bracket; the bracket is not looked for among
    the first `opening` characters. -/
def splitClass? (opening : Nat) (cs : List Char) : Option (List Char × List Char) :=
  let tail := cs.drop opening
  match tail.dropWhile (· ≠ ']') with
  | [] => none
  | _ :: rest => some (cs.take opening ++ tail.takeWhile (· ≠ ']'), rest)

/-- A class whose opening bracket stands before `cs`: its token, how many characters it takes together
    with both brackets, and what follows. -/
def classToken? (cs : List Char) : Option (Token × Nat × List Char) :=
  match cs with
  | '!' :: inner =>
    (splitClass? 1 inner).map fun (members, rest) =>
      (.noneOf (classItems members), members.length + 3, rest)
  | _ =>
    (splitClass? 1 cs).map fun (members, rest) =>
      (.oneOf (classItems members), members.length + 2, rest)

/-- Put a double star after the tokens so far, newest first. Two in a row count once, except that the
    first token of a pattern is not looked at. -/
def pushComponents (tokens : List Token) : List Token :=
  if 1 < tokens.length ∧ tokens.head? = some .anyComponents then tokens
  else .anyComponents :: tokens

/-- Read a pattern of at most `fuel` characters. `position` characters stand before it, the last of them
    `previous`; `tokens` are those read so far, newest first. -/
def parseFrom : Nat → Nat → Option Char → List Token → List Char → Except PatternError (List Token)
  | 0, _, _, tokens, _ => .ok tokens.reverse
  | _ + 1, _, _, tokens, [] => .ok tokens.reverse
  | fuel + 1, position, previous, tokens, c :: cs =>
    if c = '?' then parseFrom fuel (position + 1) (some c) (.anyChar :: tokens) cs
    else if c = '*' then
      let stars := (cs.takeWhile (· = '*')).length + 1
      let rest := cs.dropWhile (· = '*')
      if 2 < stars then .error ⟨position + 2, .wildcards⟩
      else if stars = 2 then
        if previous.all (· = '/') then
          match rest with
          | [] => parseFrom fuel (position + 2) (some c) (pushComponents tokens) rest
          | next :: rest =>
            if next = '/' then
              parseFrom fuel (position + 3) (some '/') (pushComponents tokens) rest
            else .error ⟨position + 2, .recursiveWildcards⟩
        else .error ⟨position - 1, .recursiveWildcards⟩
      else parseFrom fuel (position + 1) (some c) (.anySequence :: tokens) cs
    else if c = '[' then
      match classToken? cs with
      | some (t, length, rest) => parseFrom fuel (position + length) (some ']') (t :: tokens) rest
      | none => .error ⟨position, .invalidRange⟩
    else parseFrom fuel (position + 1) (some c) (.literal c :: tokens) cs

/-- Read a pattern. -/
def parse (text : List Char) : Except PatternError Pattern :=
  (parseFrom text.length 0 none [] text).map Pattern.mk

/-! ## Matching -/

/-- How the attempt to match ended: the text matched, it did not, or it was used up too early, so that a
    longer match of an earlier star cannot help either. -/
inductive MatchResult
  | matched
  | mismatch
  | exhausted
  deriving DecidableEq, Repr

/-- Whether a character is a member of a class. -/
def inClass (items : List ClassItem) (c : Char) : Bool :=
  items.any fun
    | .single d => c == d
    | .range first last => first ≤ c && c ≤ last

/-- Whether a token that stands for one character stands for this one. -/
def tokenMatches (t : Token) (c : Char) : Bool :=
  match t with
  | .literal d => c == d
  | .anyChar => c != '/'
  | .oneOf items => c != '/' && inClass items c
  | .noneOf items => c != '/' && !inClass items c
  | .anySequence => false
  | .anyComponents => false

/-- Let a star take as few characters as the rest of the pattern allows, and no slash. -/
def matchSequence (rest : List Char → MatchResult) : List Char → MatchResult
  | [] => rest []
  | c :: cs =>
    match rest (c :: cs) with
    | .mismatch => if c = '/' then .mismatch else matchSequence rest cs
    | result => result

/-- Let a double star take whole components: the rest of the pattern is tried after each slash, and at
    the end of the text. -/
def matchComponents (rest : List Char → MatchResult) : List Char → MatchResult
  | [] => rest []
  | c :: cs =>
    if c = '/' then
      match rest cs with
      | .mismatch => matchComponents rest cs
      | result => result
    else matchComponents rest cs

/-- Match tokens against a whole text. -/
def matchTokens : List Token → List Char → MatchResult
  | [], [] => .matched
  | [], _ :: _ => .mismatch
  | .anySequence :: ts, cs => matchSequence (matchTokens ts) cs
  | .anyComponents :: ts, cs =>
    match matchTokens ts cs with
    | .mismatch => matchComponents (matchTokens ts) cs
    | result => result
  | _ :: _, [] => .exhausted
  | t :: ts, c :: cs => if tokenMatches t c then matchTokens ts cs else .mismatch

/-- Whether a pattern matches a whole text. -/
def covers (p : Pattern) (text : List Char) : Bool := matchTokens p.tokens text == .matched

end Pattern

end TreeImage
