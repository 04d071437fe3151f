import Mathlib.Data.List.Basic
import TreeImage.Ignore.Rules

set_option autoImplicit false

/-! # Ignore files are read line by line

Two ignore files that are written one after the other have the rules of both (`IgnoreRules.parse_append`), and the
last rule that applies decides (`IgnoreRules.decide?_append`). What lines hold besides rules makes no difference: padded
lines, with comments and blank lines among them and blank characters at their ends, have the same rules
(`Padded.ofLines_eq`). -/

namespace TreeImage

variable {origin : Path} {line line' cs blanks : List Char} {lines lines' : List (List Char)}

/-! ## One line -/

/-- A text of blank characters. -/
def IsBlankText (cs : List Char) : Prop := ∀ c ∈ cs, isBlank c = true

instance (cs : List Char) : Decidable (IsBlankText cs) := decidable_of_iff (cs.all isBlank = true) List.all_eq_true

theorem isBlankText_nil : IsBlankText [] := fun _ h => absurd h List.not_mem_nil

theorem isBlankText_return : IsBlankText ['\r'] := by decide

theorem trimEnd_append_blank (h : IsBlankText blanks) : trimEnd (cs ++ blanks) = trimEnd cs := by
  have hblank : ∀ c ∈ blanks.reverse, isBlank c = true := fun c hc => h c (List.mem_reverse.1 hc)
  rw [trimEnd, trimEnd, List.reverse_append, List.dropWhile_append_of_pos hblank]

theorem trimEnd_of_blank (h : IsBlankText cs) : trimEnd cs = [] := by
  rw [← List.nil_append cs, trimEnd_append_blank h]
  rfl

theorem trimEnd_prefix (cs : List Char) : trimEnd cs <+: cs := by
  have hsuffix := List.dropWhile_suffix isBlank (l := cs.reverse)
  rw [← List.reverse_prefix, List.reverse_reverse] at hsuffix
  exact hsuffix

/-- The rule of a line does not depend on the blank characters at its end. -/
theorem Rule.ofLine?_congr (h : trimEnd line = trimEnd line') :
    Rule.ofLine? origin line = Rule.ofLine? origin line' := by
  simp only [Rule.ofLine?, h]

/-- A line that is a comment or blank. -/
def IsIdle (line : List Char) : Prop := line.head? = some '#' ∨ IsBlankText line

theorem IsIdle.ofLine? (h : IsIdle line) : Rule.ofLine? origin line = .ok none := by
  have hskipped : trimEnd line = [] ∨ (trimEnd line).head? = some '#' := by
    rcases h with hcomment | hblank
    · -- what is left of a comment starts with the same character
      by_cases hnil : trimEnd line = []
      · exact .inl hnil
      · obtain ⟨rest, hrest⟩ := trimEnd_prefix line
        rw [← hrest, List.head?_append_of_ne_nil _ hnil] at hcomment
        exact .inr hcomment
    · exact .inl (trimEnd_of_blank hblank)
  simp only [Rule.ofLine?, if_pos hskipped]

/-! ## The lines of a text -/

/-- A line without the carriage return at its end. -/
def dropReturn (line : List Char) : List Char := if line.getLast? = some '\r' then line.dropLast else line

/-- The lines that are told apart by line feeds. A carriage return before a line feed belongs to the end of the line,
    and nothing behind the last line feed is no line. -/
def endedLines : List (List Char) → List (List Char)
  | [] => []
  | [last] => if last = [] then [] else [last]
  | line :: next :: rest => dropReturn line :: endedLines (next :: rest)

/-- The lines of a text. Each is ended by a line feed, with a carriage return before it or not; the last one may be
    left open. -/
def textLines (text : String) : List (List Char) := endedLines (segments '\n' text.toList)

/-- The text with a carriage return before each line feed. -/
def withReturns (text : String) : String :=
  String.ofList (text.toList.flatMap fun c => if c = '\n' then ['\r', '\n'] else [c])

/-- The lines between line feeds with a carriage return before each line feed. -/
def addReturns : List (List Char) → List (List Char)
  | [] => []
  | [last] => [last]
  | line :: next :: rest => (line ++ ['\r']) :: addReturns (next :: rest)

theorem segments_withReturns (cs : List Char) :
    segments '\n' (cs.flatMap fun c => if c = '\n' then ['\r', '\n'] else [c]) = addReturns (segments '\n' cs) := by
  induction cs with
  | nil => rfl
  | cons c cs ih =>
    rw [List.flatMap_cons, segments_cons]
    obtain ⟨s, ss, hs⟩ := List.exists_cons_of_ne_nil (segments_ne_nil '\n' cs)
    rw [hs] at ih ⊢
    by_cases hfeed : c = '\n'
    · simp only [if_pos hfeed, List.cons_append, List.nil_append, segments_cons, ih]
      cases ss <;> simp [consSegment, addReturns, hfeed]
    · simp only [if_neg hfeed, List.cons_append, List.nil_append, segments_cons, ih]
      cases ss <;> simp [consSegment, addReturns, hfeed]

/-! ## Padded lines -/

/-- The second lines are the first ones with comments and blank lines put among them, and with whatever blank characters
    at their ends. -/
inductive Padded : List (List Char) → List (List Char) → Prop
  | done : Padded [] []
  | line {core before after : List Char} {lines lines' : List (List Char)} : IsBlankText before → IsBlankText after →
      Padded lines lines' → Padded ((core ++ before) :: lines) ((core ++ after) :: lines')
  | extra {idle : List Char} {lines lines' : List (List Char)} : IsIdle idle →
      Padded lines lines' → Padded lines (idle :: lines')

/-- **Padded lines have the same rules**, or fail at the same pattern. -/
theorem Padded.ofLines_eq (h : Padded lines lines') :
    IgnoreRules.ofLines origin lines' = IgnoreRules.ofLines origin lines := by
  induction h with
  | done => rfl
  | @line core before after _ _ hbefore hafter _ ih =>
    have hline : trimEnd (core ++ after) = trimEnd (core ++ before) := by
      rw [trimEnd_append_blank hafter, trimEnd_append_blank hbefore]
    rw [IgnoreRules.ofLines, IgnoreRules.ofLines, Rule.ofLine?_congr hline, ih]
  | extra hidle _ ih =>
    rw [IgnoreRules.ofLines, hidle.ofLine?, ih]
    cases IgnoreRules.ofLines origin _ <;> rfl

/-- A line followed by blank characters is padded. -/
theorem Padded.append (line : List Char) (h : IsBlankText blanks) (hrest : Padded lines lines') :
    Padded (line :: lines) ((line ++ blanks) :: lines') := by
  have hpadded : Padded ((line ++ []) :: lines) ((line ++ blanks) :: lines') := hrest.line isBlankText_nil h
  rwa [List.append_nil] at hpadded

theorem exists_eq_dropReturn_append (line : List Char) :
    ∃ blanks, IsBlankText blanks ∧ line = dropReturn line ++ blanks := by
  unfold dropReturn
  split
  · next hlast =>
    obtain ⟨front, rfl⟩ := List.getLast?_eq_some_iff.1 hlast
    exact ⟨['\r'], isBlankText_return, by rw [List.dropLast_concat]⟩
  · exact ⟨[], isBlankText_nil, (List.append_nil line).symm⟩

/-- What stands between line feeds are the lines, with carriage returns at their ends and a blank line more. -/
theorem padded_endedLines (lines : List (List Char)) : Padded (endedLines lines) lines := by
  fun_induction endedLines lines with
  | case1 => exact .done
  | case2 => exact Padded.done.extra (.inr isBlankText_nil)
  | case3 last _ => simpa using Padded.done.append last isBlankText_nil
  | case4 line next rest ih =>
    obtain ⟨blanks, hblank, hline⟩ := exists_eq_dropReturn_append line
    have hpadded := ih.append (dropReturn line) hblank
    rwa [← hline] at hpadded

theorem padded_addReturns (lines : List (List Char)) : Padded lines (addReturns lines) := by
  fun_induction addReturns lines with
  | case1 => exact .done
  | case2 last => simpa using Padded.done.append last isBlankText_nil
  | case3 line next rest ih => exact ih.append line isBlankText_return

/-! ## Whole files -/

namespace IgnoreRules

/-- A file is read from the lines of its text. -/
theorem parse_eq (origin : Path) (text : String) :
    parse origin text = (ofLines origin (textLines text)).map IgnoreRules.mk := by
  rw [parse, textLines, (padded_endedLines _).ofLines_eq]

theorem parse_withReturns (origin : Path) (text : String) : parse origin (withReturns text) = parse origin text := by
  rw [parse, parse, withReturns, String.toList_ofList, segments_withReturns, (padded_addReturns _).ofLines_eq]

theorem ofLines_append (lines lines' : List (List Char)) :
    ofLines origin (lines ++ lines') =
      (ofLines origin lines).bind fun rules => (ofLines origin lines').map (rules ++ ·) := by
  induction lines with
  | nil =>
    simp only [List.nil_append, ofLines]
    cases ofLines origin lines' <;> rfl
  | cons line rest ih =>
    simp only [List.cons_append, ofLines, ih]
    cases Rule.ofLine? origin line with
    | error e => rfl
    | ok rule? =>
      cases ofLines origin rest with
      | error e => rfl
      | ok rules => cases ofLines origin lines' <;> simp [Except.bind, Except.map]

/-- **A file that goes on with another one has the rules of both.** -/
theorem parse_append (origin : Path) (a b : String) :
    parse origin (a ++ "\n" ++ b) =
      (parse origin a).bind fun first => (parse origin b).map fun second => ⟨first.rules ++ second.rules⟩ := by
  have hcut : segments '\n' (a ++ "\n" ++ b).toList = segments '\n' a.toList ++ segments '\n' b.toList := by
    rw [← segments_append, String.toList_append, String.toList_append, List.append_assoc]
    rfl
  rw [parse, hcut, ofLines_append, parse, parse]
  cases ofLines origin (segments '\n' a.toList) with
  | error e => rfl
  | ok rules => cases ofLines origin (segments '\n' b.toList) <;> rfl

variable {path : String} {isDirectory : Bool}

theorem decide?_append (first second : List Rule) : decide? ⟨first ++ second⟩ path isDirectory =
    (decide? ⟨second⟩ path isDirectory).or (decide? ⟨first⟩ path isDirectory) := by
  simp only [decide?, List.reverse_append, List.find?_append]
  cases second.reverse.find? (·.applies path isDirectory) <;> rfl

theorem decide?_eq_none_iff {rules : IgnoreRules} : decide? rules path isDirectory = none ↔
    rules.rules.any (·.applies path isDirectory) = false := by
  simp [decide?]

/-- The rules that come last decide, if one of them applies. -/
theorem isIgnored_append (first second : List Rule) : isIgnored ⟨first ++ second⟩ path isDirectory =
    if second.any (·.applies path isDirectory) then isIgnored ⟨second⟩ path isDirectory
    else isIgnored ⟨first⟩ path isDirectory := by
  have hnone : decide? ⟨second⟩ path isDirectory = none ↔ second.any (·.applies path isDirectory) = false :=
    decide?_eq_none_iff
  rw [isIgnored, isIgnored, isIgnored, decide?_append]
  by_cases hany : second.any (·.applies path isDirectory) = true
  · obtain ⟨ignored, hdecision⟩ := Option.ne_none_iff_exists'.1 (mt hnone.1 (ne_false_of_eq_true hany))
    rw [if_pos hany, hdecision, Option.some_or]
  · rw [if_neg hany, hnone.2 (Bool.eq_false_iff.2 hany), Option.none_or]

/-- **Ignore files compose line by line, and the last rule that applies decides.** One file after another is read
    exactly if both are, and then the second decides wherever one of its rules applies. Comments, blank lines, blank
    characters at the ends of lines and carriage returns make no difference. -/
theorem parse_line_by_line (origin : Path) :
    (∀ a b, ((∃ rules, parse origin (a ++ "\n" ++ b) = .ok rules) ↔
        (∃ first, parse origin a = .ok first) ∧ ∃ second, parse origin b = .ok second) ∧
      ∀ rules first second, parse origin (a ++ "\n" ++ b) = .ok rules → parse origin a = .ok first →
        parse origin b = .ok second → ∀ path isDirectory, rules.isIgnored path isDirectory =
          if second.rules.any (·.applies path isDirectory) then second.isIgnored path isDirectory
          else first.isIgnored path isDirectory) ∧
    (∀ text text', Padded (textLines text) (textLines text') → parse origin text' = parse origin text) ∧
    ∀ text, parse origin (withReturns text) = parse origin text := by
  refine ⟨fun a b => ?_, fun text text' hpadded => ?_, parse_withReturns origin⟩
  · rw [parse_append]
    refine ⟨?_, fun rules first second hrules hfirst hsecond path isDirectory => ?_⟩
    · cases parse origin a <;> cases parse origin b <;> simp [Except.bind, Except.map]
    · rw [hfirst, hsecond] at hrules
      cases hrules
      exact isIgnored_append first.rules second.rules
  · rw [parse_eq, parse_eq, hpadded.ofLines_eq]

/-- A rule, a rule that takes part of it back, and the first rule again between a comment and blank lines. -/
theorem parse_line_by_line_log :
    (∃ rules, parse (.ofString "i") ("*.log" ++ "\n" ++ "!keep.log") = .ok rules ∧
      rules.isIgnored "a/keep.log" false = false ∧ rules.isIgnored "a/drop.log" false = true) ∧
    Padded (textLines "*.log") (textLines "# logs\n \n*.log \t\r\n") ∧
    parse (.ofString "i") "# logs\n \n*.log \t\r\n" = parse (.ofString "i") "*.log" := by
  obtain ⟨hcompose, hpad, -⟩ := parse_line_by_line (.ofString "i")
  obtain ⟨hok, hdecide⟩ := hcompose "*.log" "!keep.log"
  have hfirst : parse (.ofString "i") "*.log" =
      .ok ⟨[⟨⟨[.anySequence, .literal '.', .literal 'l', .literal 'o', .literal 'g']⟩, false, false, false⟩]⟩ := rfl
  have hsecond : parse (.ofString "i") "!keep.log" =
      .ok ⟨[⟨⟨"keep.log".toList.map .literal⟩, true, false, false⟩]⟩ := rfl
  obtain ⟨rules, hrules⟩ := hok.2 ⟨⟨_, hfirst⟩, ⟨_, hsecond⟩⟩
  have hpadded : Padded (textLines "*.log") (textLines "# logs\n \n*.log \t\r\n") := by
    have htext : textLines "*.log" = ["*.log".toList] := by decide
    have htext' : textLines "# logs\n \n*.log \t\r\n" = ["# logs".toList, [' '], "*.log".toList ++ [' ', '\t']] := by
      decide
    have hcomment : IsIdle "# logs".toList := .inl (by decide)
    have hblank : IsIdle [' '] := .inr (by decide)
    have hline : Padded ["*.log".toList] ["*.log".toList ++ [' ', '\t']] := Padded.done.append _ (by decide)
    rw [htext, htext']
    exact .extra hcomment (.extra hblank hline)
  refine ⟨⟨rules, hrules, ?_, ?_⟩, hpadded, hpad _ _ hpadded⟩
  · rw [hdecide rules _ _ hrules hfirst hsecond]
    decide +kernel
  · rw [hdecide rules _ _ hrules hfirst hsecond]
    decide +kernel

end IgnoreRules

end TreeImage
