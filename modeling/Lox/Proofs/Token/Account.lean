import Lox.Proofs.Grammar.Terminals

/-!
# Accounting for a text

Every character of a text belongs to exactly one segment: to the lexeme of a token, to a comment or
to a string that is never closed, or it is a blank or a stray character by itself.  Which of these a
segment is can be said without the scanner, by the terminals of the language and the text that
begins with the segment.  The lines of tokens and errors are counted in the text as a whole.

**Main definitions.**
* `Segment.Starts`: the ways in which a segment can start, one for each decision of the scanner.
* `Segment.Fits`: what a segment is, by the text that begins with it.
* `Segment.Placed`: segments that fit at their places, with their lines.

**Results.**
* `Segment.textOf_splitFrom`: the split of a text makes up the text.
* `Segment.placed_splitFrom`: its segments fit at their places.
-/

namespace Lox

/-- The tokens of a scanned text, and the one that stands for its end. -/
def Scan.emitted (found : Scan) : List Token :=
  found.tokens ++ [⟨.endOfText, "", found.endLine⟩]

namespace Segment

/-- The kind of the segment at the start of `c :: rest`, and how much of `rest` belongs to it. -/
inductive Starts (c : Char) (rest : List Char) : SegmentKind × Nat → Prop
  | punctuation
      {kind : TokenKind}
      (hkind : TokenKind.ofPunctuation? c = some kind) :
      Starts c rest (.token kind, 0)
  | paired
      {alone paired : TokenKind}
      (hkinds : TokenKind.ofComparison? c = some (alone, paired))
      (hnext : rest.head? = some '=') :
      Starts c rest (.token paired, 1)
  | alone
      {alone paired : TokenKind}
      (hkinds : TokenKind.ofComparison? c = some (alone, paired))
      (hnext : rest.head? ≠ some '=') :
      Starts c rest (.token alone, 0)
  | comment
      (hslash : c = '/')
      (hnext : rest.head? = some '/') :
      Starts c rest (.comment, countWhile (· != '\n') rest)
  | slash
      (hslash : c = '/')
      (hnext : rest.head? ≠ some '/') :
      Starts c rest (.token .slash, 0)
  | blank
      (hblank : isBlank c = true) :
      Starts c rest (.blank, 0)
  | string
      (hquote : c = '"')
      (hclosed : countWhile (· != '"') rest < rest.length) :
      Starts c rest (.token .string, countWhile (· != '"') rest + 1)
  | unclosed
      (hquote : c = '"')
      (hopen : rest.length ≤ countWhile (· != '"') rest) :
      Starts c rest (.unclosed, countWhile (· != '"') rest)
  | number
      (hdigit : isDigit c = true) :
      Starts c rest (.token .number, numberExtent rest)
  | word
      {extent : Nat}
      (hletter : isLetter c = true)
      (hextent : extent = countWhile isWordPart rest) :
      Starts c rest (.token (.ofWord (String.ofList (c :: rest.take extent))), extent)
  | stray
      (hpunctuation : TokenKind.ofPunctuation? c = none)
      (hcomparison : TokenKind.ofComparison? c = none)
      (hslash : c ≠ '/')
      (hblank : isBlank c = false)
      (hquote : c ≠ '"')
      (hdigit : isDigit c = false)
      (hletter : isLetter c = false) :
      Starts c rest (.stray, 0)

theorem starts (c : Char) (rest : List Char) : Starts c rest (start c rest) := by
  unfold start
  split
  · next hkind => exact .punctuation hkind
  · next hkinds =>
      split
      · next hnext => exact .paired hkinds (eq_of_beq hnext)
      · next hnext => exact .alone hkinds (by simpa using hnext)
  · next hpunctuation hcomparison =>
      split
      · next hslash =>
          unfold slashStart
          split
          · next hnext => exact .comment (eq_of_beq hslash) (eq_of_beq hnext)
          · next hnext => exact .slash (eq_of_beq hslash) (by simpa using hnext)
      · next hslash =>
          split
          · next hblank => exact .blank hblank
          · next hblank =>
              split
              · next hquote =>
                  unfold stringStart
                  dsimp only
                  split
                  · next hclosed => exact .string (eq_of_beq hquote) hclosed
                  · next hopen => exact .unclosed (eq_of_beq hquote) (Nat.le_of_not_lt hopen)
              · next hquote =>
                  split
                  · next hdigit => exact .number hdigit
                  · next hdigit =>
                      split
                      · next hletter => exact .word hletter rfl
                      · next hletter =>
                          exact .stray hpunctuation hcomparison (by simpa using hslash)
                            (by simpa using hblank) (by simpa using hquote)
                            (by simpa using hdigit) (by simpa using hletter)

/-- A segment is at the start of a text, and the others are those of the text behind it. -/
theorem exists_of_splitFrom_eq_cons
    {line : Int}
    {text : List Char}
    {s : Segment}
    {others : List Segment}
    (h : splitFrom line text = s :: others) :
    ∃ c l behind, text = c :: (l ++ behind) ∧ s.text = c :: l
      ∧ start c (l ++ behind) = (s.kind, l.length) ∧ splitFrom s.line behind = others := by
  cases text with
  | nil => simp at h
  | cons c rest =>
      rw [splitFrom_cons] at h
      obtain ⟨rfl, hrest⟩ := List.cons.inj h
      refine ⟨c, rest.take (start c rest).2, rest.drop (start c rest).2, ?_, rfl, ?_, hrest⟩
      · rw [List.take_append_drop]
      · rw [List.take_append_drop, List.length_take_of_le (start_le c rest)]
        rfl

/-- A token is what starts the text that it stands in front of. -/
theorem start_of_mem_splitFrom
    {line : Int}
    {text : List Char}
    {t : Token}
    (ht : t ∈ (splitFrom line text).filterMap token?) :
    ∃ c l behind, t.lexeme = String.ofList (c :: l)
      ∧ start c (l ++ behind) = (.token t.kind, l.length) := by
  generalize hsegments : splitFrom line text = segments at ht
  induction segments generalizing line text with
  | nil => simp at ht
  | cons s others ih =>
      obtain ⟨c, l, behind, -, htext, hstart, hothers⟩ := exists_of_splitFrom_eq_cons hsegments
      obtain ⟨s', hs', htoken⟩ := List.mem_filterMap.mp ht
      rcases List.mem_cons.mp hs' with rfl | hmem
      · unfold token? at htoken
        split at htoken
        · next kind hkind =>
            cases htoken
            exact ⟨c, l, behind, by rw [htext], hkind ▸ hstart⟩
        · cases htoken
      · exact ih hothers (List.mem_filterMap.mpr ⟨s', hmem, htoken⟩)

/-- A run of characters ends exactly where a text goes on behind it. -/
theorem countWhile_append_eq_length_iff
    {p : Char → Bool}
    {l behind : List Char} :
    countWhile p (l ++ behind) = l.length
      ↔ (∀ c ∈ l, p c = true) ∧ ∀ c ∈ behind.head?, p c = false := by
  constructor
  · intro h
    have hall : ∀ c ∈ l, p c = true := by
      have htake : ∀ c ∈ (l ++ behind).take l.length, p c = true :=
        (Grammar.forall_mem_take_iff (l ++ behind) (by simp)).mpr h.ge
      rwa [List.take_left] at htake
    refine ⟨hall, fun c hc => ?_⟩
    rw [Grammar.countWhile_append_of_all hall] at h
    obtain ⟨more, rfl⟩ := List.head?_eq_some_iff.mp hc
    by_contra hp
    simp [countWhile, hp] at h
  · rintro ⟨hall, hend⟩
    rw [Grammar.countWhile_append_of_all hall]
    cases behind with
    | nil => rfl
    | cons c more => simp [countWhile, hend c rfl]

/--
What a segment is, by the text that begins with it: a token is the longest match of any terminal
there, and where a stray character stands no terminal matches.
-/
def Fits (s : Segment) (behind : List Char) : Prop :=
  match s.kind with
  | .token kind => Grammar.TakesAt (s.text ++ behind) s.text.length (some kind)
  | .blank => ∃ c, s.text = [c] ∧ isBlank c = true
  | .comment =>
      ∃ inside, s.text = '/' :: '/' :: inside ∧ '\n' ∉ inside ∧ ∀ c ∈ behind.head?, c = '\n'
  | .stray =>
      ∃ c, s.text = [c] ∧ c ≠ '"'
        ∧ ∀ t ∈ Grammar.terminals, ∀ n, ¬ t.MatchesAt (c :: behind) n
  | .unclosed => ∃ inside, s.text = '"' :: inside ∧ '"' ∉ inside ∧ behind = []

/-- The text that segments make up. -/
def textOf (segments : List Segment) : List Char :=
  segments.flatMap Segment.text

@[simp] theorem textOf_cons (s : Segment) (rest : List Segment) :
    textOf (s :: rest) = s.text ++ textOf rest :=
  List.flatMap_cons

@[simp] theorem textOf_append (before after : List Segment) :
    textOf (before ++ after) = textOf before ++ textOf after :=
  List.flatMap_append

/-- Segments one behind another from a line on, each of which fits. -/
inductive Placed : Int → List Segment → Prop
  | nil {line : Int} : Placed line []
  | cons
      {line : Int}
      {s : Segment}
      {rest : List Segment}
      (hline : s.line = line + s.text.count '\n')
      (hfits : s.Fits (textOf rest))
      (hrest : Placed s.line rest) :
      Placed line (s :: rest)

theorem first_fits (line : Int) (c : Char) (rest : List Char) :
    (first line c rest).Fits (rest.drop (start c rest).2) := by
  have htaken := Grammar.takenAs_start c rest
  have hstarts := starts c rest
  have hle := start_le c rest
  unfold first Fits
  generalize start c rest = found at htaken hstarts hle
  obtain ⟨kind, n⟩ := found
  cases kind with
  | token kind =>
      have htakes : Grammar.TakesAt (c :: rest) (n + 1) (some kind) := htaken
      simpa [List.length_take_of_le hle] using htakes
  | blank => exact ⟨c, by cases hstarts; rfl, htaken.1⟩
  | comment =>
      cases hstarts with
      | comment hslash hnext =>
          obtain ⟨more, rfl⟩ := List.head?_eq_some_iff.mp hnext
          obtain ⟨inside, behind, rfl, hlength, hinside, hbehind⟩ :=
            Grammar.exists_countWhile (· != '\n') more
          have hcount : countWhile (· != '\n') ('/' :: (inside ++ behind)) = inside.length + 1 := by
            simp [countWhile, hlength]
          refine ⟨inside, ?_, ?_, ?_⟩
          · simp [hcount, hslash]
          · exact fun hmem => by simpa using hinside _ hmem
          · simpa [hcount] using hbehind
  | stray =>
      cases hstarts with
      | stray _ _ _ _ hquote _ _ => exact ⟨c, rfl, hquote, htaken⟩
  | unclosed =>
      cases hstarts with
      | unclosed hquote hopen =>
          obtain ⟨inside, behind, rfl, hlength, hinside, -⟩ :=
            Grammar.exists_countWhile (· != '"') rest
          obtain rfl : behind = [] := List.length_eq_zero_iff.mp (by
            rw [← hlength, List.length_append] at hopen
            omega)
          rw [← hlength]
          refine ⟨inside, ?_, ?_, ?_⟩
          · simp [hquote]
          · exact fun hmem => by simpa using hinside _ hmem
          · simp

theorem textOf_splitFrom (line : Int) (text : List Char) : textOf (splitFrom line text) = text := by
  induction hn : text.length using Nat.strongRecOn generalizing line text with
  | ind n ih =>
      cases text with
      | nil => simp [textOf]
      | cons c rest =>
          have hrest := ih _ (by simp at hn ⊢; omega) (first line c rest).line
            (rest.drop (start c rest).2) rfl
          rw [splitFrom_cons, textOf_cons, hrest, first, List.cons_append, List.take_append_drop]

theorem placed_splitFrom (line : Int) (text : List Char) : Placed line (splitFrom line text) := by
  induction hn : text.length using Nat.strongRecOn generalizing line text with
  | ind n ih =>
      cases text with
      | nil => simpa using Placed.nil
      | cons c rest =>
          rw [splitFrom_cons]
          refine .cons rfl ?_ (ih _ (by simp at hn ⊢; omega) _ _ rfl)
          rw [textOf_splitFrom]
          exact first_fits line c rest

/-- A segment fits at its place, and its line is counted up to its end. -/
theorem Placed.at
    {line : Int}
    {before : List Segment}
    {s : Segment}
    {after : List Segment}
    (h : Placed line (before ++ s :: after)) :
    s.Fits (textOf after) ∧ s.line = line + (textOf before ++ s.text).count '\n' := by
  induction before generalizing line with
  | nil =>
      obtain _ | ⟨hline, hfits, -⟩ := h
      exact ⟨hfits, hline⟩
  | cons s' before ih =>
      obtain _ | ⟨hline, -, hrest⟩ := h
      obtain ⟨hfits, hlast⟩ := ih hrest
      refine ⟨hfits, ?_⟩
      rw [hlast, hline]
      simp only [textOf_cons, List.append_assoc, List.count_append, Nat.cast_add]
      ring

end Segment

/-- Only one terminal stands for strings. -/
theorem Grammar.pattern_eq_string
    {t : Terminal}
    (ht : t ∈ terminals)
    (hkind : t.kind = some .string) :
    t.pattern = string := by
  have hfixed : (fixedTerminals.all fun x => x.2 != .string) = true := by cbv
  simp only [terminals_eq, otherTerminals, List.mem_append, List.mem_map, List.mem_cons,
    List.not_mem_nil, or_false] at ht
  rcases ht with ⟨x, hx, rfl⟩ | rfl | rfl | rfl | rfl | rfl
  · have hne := List.all_eq_true.mp hfixed x hx
    exact absurd (Option.some.inj hkind) (by simpa using hne)
  · cases hkind
  · cases hkind
  · rfl
  · cases hkind
  · cases hkind

/-- The lexeme of a string is its value between two quotes. -/
theorem Segment.Fits.quoted
    {s : Segment}
    {behind : List Char}
    (hfits : s.Fits behind)
    (hkind : s.kind = .token .string) :
    ∃ inside, s.text = '"' :: (inside ++ ['"']) := by
  rw [Fits, hkind] at hfits
  obtain ⟨before, t, after, hsplit, hstring, ⟨-, hmatches⟩, -⟩ := hfits.first
  have hmem : t ∈ Grammar.terminals := hsplit ▸ List.mem_append_right _ List.mem_cons_self
  rw [Grammar.pattern_eq_string hmem hstring, List.take_left, Grammar.string] at hmatches
  simp only [Grammar.Pattern.matches_seq, Grammar.Pattern.matches_ofText] at hmatches
  obtain ⟨_, _, htext, rfl, inside, _, rfl, -, rfl⟩ := hmatches
  exact ⟨inside, htext⟩

/-- A string denotes its lexeme without the two quotes. -/
theorem Segment.Fits.denotes
    {s : Segment}
    {behind : List Char}
    (hfits : s.Fits behind)
    (hkind : s.kind = .token .string)
    (line : Int) :
    ∃ inside, String.ofList s.text = "\"" ++ inside ++ "\""
      ∧ Token.literal ⟨.string, String.ofList s.text, line⟩ = .string inside := by
  obtain ⟨inside, htext⟩ := hfits.quoted hkind
  refine ⟨String.ofList inside, ?_, ?_⟩
  · simp [htext, String.append_assoc]
  · simp [Token.literal, unquoted, htext]

/-- No line break is a stray character. -/
theorem Segment.Fits.count_stray
    {s : Segment}
    {behind : List Char}
    (hfits : s.Fits behind)
    (hkind : s.kind = .stray) :
    s.text.count '\n' = 0 := by
  rw [Fits, hkind] at hfits
  obtain ⟨c, htext, -, hnone⟩ := hfits
  have hbreak : c ≠ '\n' := by
    rintro rfl
    exact hnone ⟨none, Grammar.space⟩ (by simp [Grammar.terminals]) 1
      (Grammar.matchesAt_space.mpr ⟨Nat.one_pos, by decide, by omega⟩)
  rw [htext, List.count_singleton, if_neg (by simpa using hbreak)]

/-- The line on which a text goes on behind some of it. -/
def lineBehind (used : List Char) : Int :=
  1 + used.count '\n'

end Lox
