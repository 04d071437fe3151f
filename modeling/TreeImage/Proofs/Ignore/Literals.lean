import Mathlib.Data.List.Basic
import TreeImage.Ignore.Rules

set_option autoImplicit false

/-! # Rules that name one entry

A name without characters of patterns is a pattern that matches nothing but itself (`Pattern.covers_literals`). Every
such name can be written as a rule, with any marks around it, and the line is read back as that rule
(`LiteralRule.parse_line`): the marks are taken off in the order in which they were put on, and a backslash keeps the
first character of the name from being one of them. -/

namespace TreeImage

/-! ## Patterns without wildcards -/

namespace Pattern

/-- No character stands for others than itself. -/
def IsPlain (cs : List Char) : Prop := ∀ c ∈ cs, c ≠ '*' ∧ c ≠ '?' ∧ c ≠ '['

instance (cs : List Char) : Decidable (IsPlain cs) :=
  decidable_of_iff (cs.all (fun c => c ≠ '*' ∧ c ≠ '?' ∧ c ≠ '[') = true) (by simp [IsPlain])

theorem parseFrom_plain {cs : List Char} (h : IsPlain cs) {fuel : Nat} (hfuel : cs.length ≤ fuel) (position : Nat)
    (previous : Option Char) (tokens : List Token) :
    parseFrom fuel position previous tokens cs = .ok (tokens.reverse ++ cs.map .literal) := by
  induction cs generalizing fuel position previous tokens with
  | nil => cases fuel <;> simp [parseFrom]
  | cons c cs ih =>
    obtain ⟨⟨hstar, hmark, hbracket⟩, hrest⟩ := List.forall_mem_cons.1 h
    cases fuel with
    | zero => simp at hfuel
    | succ fuel =>
      rw [parseFrom, if_neg hmark, if_neg hstar, if_neg hbracket, ih hrest (by simpa using hfuel)]
      simp

/-- A text without wildcards is a pattern, each of its characters a token. -/
theorem parse_plain {cs : List Char} (h : IsPlain cs) : Pattern.parse cs = .ok ⟨cs.map .literal⟩ := by
  rw [Pattern.parse, parseFrom_plain h (Nat.le_refl _)]
  rfl

theorem matchTokens_literals (cs text : List Char) :
    matchTokens (cs.map .literal) text = .matched ↔ text = cs := by
  induction cs generalizing text with
  | nil => cases text <;> simp [matchTokens]
  | cons c cs ih =>
    cases text with
    | nil => simp [matchTokens]
    | cons d text => by_cases hd : d = c <;> simp [matchTokens, tokenMatches, hd, ih]

/-- **A pattern of literals matches one text only.** -/
theorem covers_literals (cs text : List Char) : (Pattern.mk (cs.map .literal)).covers text = true ↔ text = cs := by
  rw [covers, beq_iff_eq, matchTokens_literals]

end Pattern

/-! ## Marks -/

/-- A character, or nothing. -/
def markIf (marked : Bool) (mark : Char) : List Char := if marked then [mark] else []

theorem afterMark?_markIf (marked : Bool) {mark : Char} {cs : List Char} (h : cs.head? ≠ some mark) :
    (afterMark? mark (markIf marked mark ++ cs)).getD (markIf marked mark ++ cs) = cs ∧
      (afterMark? mark (markIf marked mark ++ cs)).isSome = marked := by
  cases marked with
  | true => simp [markIf, afterMark?]
  | false => cases cs <;> simp_all [markIf, afterMark?]

theorem beforeFinalSlash?_markIf (marked : Bool) {cs : List Char} (h : cs.getLast? ≠ some '/') :
    (beforeFinalSlash? (cs ++ markIf marked '/')).getD (cs ++ markIf marked '/') = cs ∧
      (beforeFinalSlash? (cs ++ markIf marked '/')).isSome = marked := by
  cases marked <;> simp [markIf, beforeFinalSlash?, h]

theorem unescape_of_head? {cs : List Char} (h : cs.head? ≠ some '\\') : unescape cs = cs := by
  unfold unescape
  split
  · exact absurd rfl h
  · rfl

theorem trimEnd_eq_self {cs : List Char} (h : ∀ c, cs.getLast? = some c → isBlank c = false) : trimEnd cs = cs := by
  rcases List.eq_nil_or_concat cs with rfl | ⟨front, c, rfl⟩
  · rfl
  · have hc := h c (by simp)
    simp [trimEnd, hc]

/-! ## Names -/

/-- A name that can be written in one line without a change: no character of it means something else in a pattern, and
    neither a slash nor a blank is lost at its ends. -/
structure IsLiteralName (cs : List Char) : Prop where
  present : cs ≠ []
  plain : Pattern.IsPlain cs
  noBackslash : '\\' ∉ cs
  noLineFeed : '\n' ∉ cs
  noLeadingSlash : cs.head? ≠ some '/'
  noFinalSlash : cs.getLast? ≠ some '/'
  noFinalBlank : ∀ c, cs.getLast? = some c → isBlank c = false

theorem isLiteralName_iff {cs : List Char} : IsLiteralName cs ↔ cs ≠ [] ∧ Pattern.IsPlain cs ∧ '\\' ∉ cs ∧
    '\n' ∉ cs ∧ cs.head? ≠ some '/' ∧ cs.getLast? ≠ some '/' ∧ cs.getLast?.all (!isBlank ·) = true := by
  simp only [Option.all_eq_true, Bool.not_eq_true']
  constructor
  · rintro ⟨hpresent, hplain, hbackslash, hfeed, hleading, hfinal, hblank⟩
    exact ⟨hpresent, hplain, hbackslash, hfeed, hleading, hfinal, hblank⟩
  · rintro ⟨hpresent, hplain, hbackslash, hfeed, hleading, hfinal, hblank⟩
    exact ⟨hpresent, hplain, hbackslash, hfeed, hleading, hfinal, hblank⟩

instance (cs : List Char) : Decidable (IsLiteralName cs) := decidable_of_iff' _ isLiteralName_iff

/-- A rule that is about one name, with the marks that a line can have. -/
structure LiteralRule where
  name : String
  literal : IsLiteralName name.toList
  negated : Bool
  rooted : Bool
  directoryOnly : Bool

namespace LiteralRule

variable {origin : Path} (r : LiteralRule)

/-- The name, and the slash that restricts the rule to directories. -/
def ending : List Char := r.name.toList ++ markIf r.directoryOnly '/'

/-- Whether the name starts like a comment or a negated rule. -/
def isMistakable : Bool := r.name.toList.head? == some '#' || r.name.toList.head? == some '!'

/-- The rule without its negation: a slash if it is rooted, or else a backslash if the name is mistakable, and then
    the name. -/
def body : List Char := (if r.rooted then ['/'] else markIf r.isMistakable '\\') ++ r.ending

/-- The line that the rule is written in. -/
def line : String := String.ofList (markIf r.negated '!' ++ r.body)

/-- The rule as it is read. -/
def rule : Rule where
  pattern := ⟨r.name.toList.map .literal⟩
  negated := r.negated
  directoryOnly := r.directoryOnly
  anchored := r.rooted || r.name.toList.contains '/'

/-- The rule is about the entry at `path`, which is a directory if it must be: the name is the whole path if the rule is
    rooted or the name has a slash, and the last segment of the path otherwise. -/
def Names (path : String) (isDirectory : Bool) : Prop :=
  (isDirectory = true ∨ r.directoryOnly = false) ∧
    if r.rooted = true ∨ '/' ∈ r.name.toList then path = r.name else lastSegment path = r.name

/-! ## Taking the marks off -/

theorem exists_name_eq_cons : ∃ c rest, r.name.toList = c :: rest ∧ c ≠ '\\' := by
  obtain ⟨c, rest, hname⟩ := List.exists_cons_of_ne_nil r.literal.present
  refine ⟨c, rest, hname, ?_⟩
  rintro rfl
  exact r.literal.noBackslash (hname ▸ List.mem_cons_self)

/-- Without its negation the rule starts neither like a comment nor like a negated rule. -/
theorem head?_body : r.body.head? ≠ some '#' ∧ r.body.head? ≠ some '!' := by
  obtain ⟨c, rest, hname, -⟩ := r.exists_name_eq_cons
  unfold body
  by_cases hrooted : r.rooted = true
  · simp [hrooted]
  · cases hmistakable : r.isMistakable with
    | true => simp [hrooted, markIf]
    | false =>
      rw [isMistakable, hname, Bool.or_eq_false_iff] at hmistakable
      simpa [hrooted, markIf, ending, hname] using hmistakable

/-- The backslash is taken off again. -/
theorem unescape_body : unescape r.body = markIf r.rooted '/' ++ r.ending := by
  obtain ⟨c, rest, hname, hbackslash⟩ := r.exists_name_eq_cons
  unfold body
  by_cases hrooted : r.rooted = true
  · simp [hrooted, markIf, unescape]
  · cases hmistakable : r.isMistakable with
    | true =>
      rw [isMistakable, hname, Bool.or_eq_true] at hmistakable
      have hmark : c = '#' ∨ c = '!' := by simpa using hmistakable
      simp [hrooted, markIf, ending, hname, unescape, hmark]
    | false =>
      rw [unescape_of_head?]
      · simp [hrooted, markIf]
      · simpa [hrooted, markIf, ending, hname] using hbackslash

/-- All marks are found, and the name is what is left. -/
theorem ofLine_line : RuleLine.ofLine r.line.toList = ⟨r.name.toList, r.negated, r.directoryOnly, r.rooted⟩ := by
  have hfinal : (markIf r.rooted '/' ++ r.name.toList).getLast? ≠ some '/' := by
    rw [List.getLast?_append_of_ne_nil _ r.literal.present]
    exact r.literal.noFinalSlash
  obtain ⟨hbody, hnegated⟩ := afterMark?_markIf r.negated r.head?_body.2
  obtain ⟨hunslashed, hdirectoryOnly⟩ := beforeFinalSlash?_markIf r.directoryOnly hfinal
  obtain ⟨hname, hrooted⟩ := afterMark?_markIf r.rooted r.literal.noLeadingSlash
  rw [List.append_assoc, ← ending] at hunslashed hdirectoryOnly
  simp only [RuleLine.ofLine, line, String.toList_ofList, hbody, hnegated, unescape_body, hunslashed, hdirectoryOnly,
    hname, hrooted]

/-! ## Reading the line -/

theorem trimEnd_line : trimEnd r.line.toList = r.line.toList := by
  have hending : r.ending ≠ [] := List.append_ne_nil_of_left_ne_nil r.literal.present _
  refine trimEnd_eq_self fun c hc => ?_
  rw [line, String.toList_ofList, body, ← List.append_assoc, List.getLast?_append_of_ne_nil _ hending, ending] at hc
  cases hdirectoryOnly : r.directoryOnly with
  | true =>
    rw [hdirectoryOnly, markIf, if_pos rfl, List.getLast?_concat] at hc
    cases hc
    decide
  | false =>
    rw [hdirectoryOnly, markIf, if_neg Bool.false_ne_true, List.append_nil] at hc
    exact r.literal.noFinalBlank c hc

/-- The line is neither blank nor a comment. -/
theorem not_idle_line : ¬(r.line.toList = [] ∨ r.line.toList.head? = some '#') := by
  obtain ⟨hcomment, -⟩ := r.head?_body
  have hbody : r.body ≠ [] :=
    List.append_ne_nil_of_right_ne_nil _ (List.append_ne_nil_of_left_ne_nil r.literal.present _)
  rw [line, String.toList_ofList]
  cases r.negated <;> simp [markIf, hbody, hcomment]

theorem lineFeed_not_mem_line : '\n' ∉ r.line.toList := by
  have hending : '\n' ∉ r.ending := by
    rw [ending]
    cases r.directoryOnly <;> simp [markIf, r.literal.noLineFeed]
  rw [line, String.toList_ofList, body]
  cases r.negated <;> cases r.rooted <;> cases r.isMistakable <;> simp [markIf, hending]

theorem ofLine?_line : Rule.ofLine? origin r.line.toList = .ok (some r.rule) := by
  simp only [Rule.ofLine?, trimEnd_line, if_neg r.not_idle_line, ofLine_line, if_neg r.literal.present,
    Pattern.parse_plain r.literal.plain]
  rfl

/-- The line is read as the rule that it was written for. -/
theorem parse_line (origin : Path) : IgnoreRules.parse origin r.line = .ok ⟨[r.rule]⟩ := by
  rw [IgnoreRules.parse, segments_of_not_mem r.lineFeed_not_mem_line, IgnoreRules.ofLines, ofLine?_line]
  rfl

theorem applies_rule (path : String) (isDirectory : Bool) :
    r.rule.applies path isDirectory = true ↔ r.Names path isDirectory := by
  have hanchored : r.rule.anchored = true ↔ r.rooted = true ∨ '/' ∈ r.name.toList := by simp [rule]
  have hcovers : ∀ text : String, r.rule.pattern.covers text.toList = true ↔ text = r.name := fun text =>
    (Pattern.covers_literals r.name.toList text.toList).trans String.toList_inj
  have hkind : (r.rule.directoryOnly && !isDirectory) = true ↔ ¬(isDirectory = true ∨ r.directoryOnly = false) := by
    cases isDirectory <;> simp [rule]
  rw [Rule.applies, Names]
  by_cases hallowed : isDirectory = true ∨ r.directoryOnly = false
  · rw [if_neg (mt hkind.1 (not_not.2 hallowed)), and_iff_right hallowed]
    by_cases hwhole : r.rooted = true ∨ '/' ∈ r.name.toList
    · rw [if_pos (hanchored.2 hwhole), if_pos hwhole, hcovers]
    · rw [if_neg (mt hanchored.1 hwhole), if_neg hwhole, hcovers]
  · rw [if_pos (hkind.2 hallowed)]
    exact iff_of_false Bool.false_ne_true fun h => hallowed h.1

/-- **Every rule about one name can be written, and is read back exactly.** The line holds one rule, negated or not as
    it was meant, and it applies to the entries that the rule names and to no others. -/
theorem line_reads_back (origin : Path) (r : LiteralRule) :
    ∃ rule, IgnoreRules.parse origin r.line = .ok ⟨[rule]⟩ ∧ rule.negated = r.negated ∧
      ∀ path isDirectory, rule.applies path isDirectory = true ↔ r.Names path isDirectory :=
  ⟨r.rule, r.parse_line origin, rfl, r.applies_rule⟩

/-- A directory whose name starts like a comment and ends like a negation, included again. -/
def mistakable : LiteralRule where
  name := "#a !"
  literal := by decide
  negated := true
  rooted := false
  directoryOnly := true

theorem line_reads_back_mistakable : mistakable.line = "!\\#a !/" ∧
    ∃ rule, IgnoreRules.parse (.ofString "i") mistakable.line = .ok ⟨[rule]⟩ ∧ rule.negated = true ∧
      rule.applies "d/#a !" true = true ∧ rule.applies "d/#a !" false = false := by
  obtain ⟨rule, hparse, hnegated, happlies⟩ := line_reads_back (.ofString "i") mistakable
  refine ⟨by decide, rule, hparse, hnegated, ?_, ?_⟩
  · rw [happlies]
    exact ⟨.inl rfl, by decide⟩
  · rw [← Bool.not_eq_true, happlies]
    rintro ⟨hallowed, -⟩
    simp [mistakable] at hallowed

end LiteralRule

end TreeImage
