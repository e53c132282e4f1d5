import Lox.Token.Scan
import Lox.Proofs.Tree.Relabel

/-!
# Scanning joined texts

No token goes on behind the end of its line, except for a string.  So if every string of a text is
closed, a line break after the text ends it: what stands behind the line break is scanned as if it
stood alone, on lines that are counted on.

**Results.**
* `Segment.splitFrom_append_newline`: the segments of a text that goes on after a line break.
* `Segment.splitFrom_add`: the segments of a text that starts on a later line.
* `scan_joined`: the tokens and errors of two texts that are joined by a line break.
-/

namespace Lox

/-- The number of line breaks in a text. -/
def lineBreaks (source : String) : Nat :=
  source.toList.count '\n'

/-- One text below another. -/
def joined (first second : String) : String :=
  first ++ "\n" ++ second

/-- Moves a text down by some lines. -/
def Relabeling.down (lines : Nat) : Relabeling :=
  .lines (· + lines)

namespace Segment

theorem countWhile_le (p : Char → Bool) (text : List Char) : countWhile p text ≤ text.length :=
  (List.takeWhile_prefix p).length_le

/-- A run of characters ends at a line break that it cannot contain. -/
theorem countWhile_append_newline
    {p : Char → Bool}
    (hp : p '\n' = false)
    (text more : List Char) :
    countWhile p (text ++ '\n' :: more) = countWhile p text := by
  unfold countWhile
  induction text with
  | nil => simp [hp]
  | cons c rest ih =>
      simp only [List.cons_append, List.takeWhile_cons]
      split
      · simp [ih]
      · rfl

/-- A run of characters that ends within a text does not change with what follows the text. -/
theorem countWhile_append_of_lt
    {p : Char → Bool}
    {text : List Char}
    (hlt : countWhile p text < text.length)
    (more : List Char) :
    countWhile p (text ++ more) = countWhile p text := by
  unfold countWhile at hlt ⊢
  rw [List.takeWhile_append, if_neg (Nat.ne_of_lt hlt)]

theorem head?_append_newline
    {c : Char}
    (hc : c ≠ '\n')
    (text more : List Char) :
    ((text ++ '\n' :: more).head? == some c) = (text.head? == some c) := by
  cases text with
  | nil => simpa using Ne.symm hc
  | cons d rest => rfl

theorem numberExtent_append_newline (rest more : List Char) :
    numberExtent (rest ++ '\n' :: more) = numberExtent rest := by
  have hdigit : isDigit '\n' = false := by decide
  have hdrop : (rest ++ '\n' :: more).drop (countWhile isDigit rest) =
      rest.drop (countWhile isDigit rest) ++ '\n' :: more :=
    List.drop_append_of_le_length (countWhile_le isDigit rest)
  unfold numberExtent
  simp only [countWhile_append_newline hdigit, hdrop]
  cases rest.drop (countWhile isDigit rest) with
  | nil => rfl
  | cons c fraction =>
      simp only [List.cons_append]
      split
      · next heq =>
          obtain ⟨rfl, rfl⟩ := List.cons.inj heq
          simp only [countWhile_append_newline hdigit]
      · next hne => 
          split
          · next heq =>
              exact absurd (by rw [(List.cons.inj heq).1]) (hne (fraction ++ '\n' :: more))
          · rfl

theorem numberExtent_le (rest : List Char) : numberExtent rest ≤ rest.length := by
  have hwhole := countWhile_le isDigit rest
  unfold numberExtent
  dsimp only
  split
  · next fraction heq =>
      have hlength := congrArg List.length heq
      have hfraction := countWhile_le isDigit fraction
      simp only [List.length_drop, List.length_cons] at hlength
      split <;> omega
  · exact hwhole

/-- A segment lies within its text. -/
theorem start_le (c : Char) (rest : List Char) : (start c rest).2 ≤ rest.length := by
  unfold start
  split
  · exact Nat.zero_le _
  · split
    · next heq =>
        cases rest with
        | nil => simp at heq
        | cons d rest => simp
    · exact Nat.zero_le _
  · split
    · unfold slashStart
      split
      · exact countWhile_le _ _
      · exact Nat.zero_le _
    · split
      · exact Nat.zero_le _
      · split
        · unfold stringStart
          dsimp only
          split
          · next hlt => exact hlt
          · exact countWhile_le _ _
        · split
          · exact numberExtent_le rest
          · split
            · exact countWhile_le _ _
            · exact Nat.zero_le _

/-- A string that is closed does not change with what follows. -/
theorem stringStart_append
    {rest : List Char}
    (hclosed : (stringStart rest).1 ≠ .unclosed)
    (more : List Char) :
    stringStart (rest ++ more) = stringStart rest := by
  unfold stringStart at hclosed ⊢
  dsimp only at hclosed ⊢
  split at hclosed
  · next hlt =>
      have hlt' : countWhile (· != '"') rest < (rest ++ more).length := by
        rw [List.length_append]
        omega
      rw [countWhile_append_of_lt hlt, if_pos hlt, if_pos hlt']
  · exact absurd rfl hclosed

theorem wordStart_append_newline (c : Char) (rest more : List Char) :
    wordStart c (rest ++ '\n' :: more) = wordStart c rest := by
  unfold wordStart
  dsimp only
  rw [countWhile_append_newline (by decide),
    List.take_append_of_le_length (countWhile_le isWordPart rest)]

/-- What starts a text is the same if the text goes on after a line break. -/
theorem start_append_newline
    {c : Char}
    {rest : List Char}
    (hclosed : (start c rest).1 ≠ .unclosed)
    (more : List Char) :
    start c (rest ++ '\n' :: more) = start c rest := by
  have hequal := head?_append_newline (c := '=') (by decide) rest more
  have hslash := head?_append_newline (c := '/') (by decide) rest more
  unfold start at hclosed ⊢
  split
  · rfl
  · rw [hequal]
  · next hpunctuation hcomparison =>
      simp only [hpunctuation, hcomparison] at hclosed
      split
      · unfold slashStart
        rw [hslash, countWhile_append_newline (by decide)]
      · next hslash =>
          split
          · rfl
          · next hblank =>
              split
              · next hquote =>
                  simp only [hslash, hblank, hquote, if_true] at hclosed
                  exact stringStart_append hclosed _
              · rw [numberExtent_append_newline, wordStart_append_newline]

/-- The segments of a text that goes on after a line break, if every string is closed before. -/
theorem splitFrom_append_newline
    {line : Int}
    {text : List Char}
    (hclosed : ∀ s ∈ splitFrom line text, s.kind ≠ .unclosed)
    (more : List Char) :
    splitFrom line (text ++ '\n' :: more) =
      splitFrom line text ++ splitFrom (line + text.count '\n') ('\n' :: more) := by
  induction hn : text.length using Nat.strongRecOn generalizing line text with
  | ind n ih =>
      cases text with
      | nil => simp
      | cons c rest =>
          rw [splitFrom_cons, List.forall_mem_cons] at hclosed
          obtain ⟨hfirst, hrest⟩ := hclosed
          have hstart := start_append_newline hfirst more
          have hle := start_le c rest
          have hsame : first line c (rest ++ '\n' :: more) = first line c rest := by
            unfold first
            rw [hstart, List.take_append_of_le_length hle]
          have hcount : (c :: rest).count '\n' = (c :: rest.take (start c rest).2).count '\n'
              + (rest.drop (start c rest).2).count '\n' := by
            rw [← List.count_append, List.cons_append, List.take_append_drop]
          rw [List.cons_append, splitFrom_cons, hsame, hstart,
            List.drop_append_of_le_length hle, splitFrom_cons line c rest,
            ih (rest.drop (start c rest).2).length (by simp at hn ⊢; omega) hrest rfl, hcount]
          simp only [first, List.cons_append, Nat.cast_add, add_assoc]

/-- A segment on a later line. -/
def down (lines : Nat) (s : Segment) : Segment :=
  { s with line := s.line + lines }

/-- The segments of a text that starts on a later line. -/
theorem splitFrom_add (line : Int) (lines : Nat) (text : List Char) :
    splitFrom (line + lines) text = (splitFrom line text).map (down lines) := by
  induction hn : text.length using Nat.strongRecOn generalizing line text with
  | ind n ih =>
      cases text with
      | nil => simp
      | cons c rest =>
          have hfirst : first (line + lines) c rest = (first line c rest).down lines := by
            simp only [first, down]
            congr 1
            ring
          rw [splitFrom_cons, splitFrom_cons, List.map_cons, hfirst]
          exact congrArg _ (ih _ (by simp at hn ⊢; omega) _ _ rfl)

theorem token?_down (lines : Nat) (s : Segment) :
    (s.down lines).token? = s.token?.map (Token.relabel (.down lines)) := by
  unfold token? down
  cases s.kind <;> rfl

theorem error?_down (lines : Nat) (s : Segment) :
    (s.down lines).error? = s.error?.map fun e => { e with line := e.line + lines } := by
  unfold error? down
  cases s.kind <;> rfl

end Segment

/-- The tokens and the errors of two texts joined by a line break, if the first has no errors. -/
theorem scan_joined
    {first : String}
    (hfirst : (scan first).errors = [])
    (second : String) :
    (scan (joined first second)).tokens =
        (scan first).tokens
          ++ (scan second).tokens.map (Token.relabel (.down (1 + lineBreaks first)))
      ∧ (scan (joined first second)).errors =
        (scan second).errors.map fun e =>
          { e with line := e.line + (1 + lineBreaks first : Nat) } := by
  have hclosed : ∀ s ∈ Segment.splitFrom 1 first.toList, s.kind ≠ .unclosed := by
    intro s hs hkind
    have herror : s.error? = some ⟨.unclosedString, s.line⟩ := by
      rw [Segment.error?, hkind]
    have hmem : (⟨.unclosedString, s.line⟩ : ScanError) ∈ (scan first).errors :=
      List.mem_filterMap.mpr ⟨s, hs, herror⟩
    simp [hfirst] at hmem
  have hbreak : Segment.splitFrom (1 + (lineBreaks first : Int)) ('\n' :: second.toList) =
      ⟨.blank, ['\n'], 1 + (1 + lineBreaks first : Nat)⟩
        :: (Segment.split second.toList).map (Segment.down (1 + lineBreaks first)) := by
    have hstart : Segment.start '\n' second.toList = (.blank, 0) := rfl
    have hline : Segment.first (1 + (lineBreaks first : Int)) '\n' second.toList =
        ⟨.blank, ['\n'], 1 + (1 + lineBreaks first : Nat)⟩ := by
      simp only [Segment.first, hstart, List.take_zero, List.count_singleton_self]
      congr 1
      omega
    rw [Segment.splitFrom_cons, hline, hstart, Segment.split, ← Segment.splitFrom_add]
    rfl
  have hsplit : Segment.split (joined first second).toList =
      Segment.split first.toList
        ++ ⟨.blank, ['\n'], 1 + (1 + lineBreaks first : Nat)⟩
        :: (Segment.split second.toList).map (Segment.down (1 + lineBreaks first)) := by
    rw [← hbreak]
    have htext : (joined first second).toList = first.toList ++ '\n' :: second.toList := by
      simp [joined]
    rw [htext]
    exact Segment.splitFrom_append_newline hclosed _
  have hblank (line : Int) : Segment.token? ⟨.blank, ['\n'], line⟩ = none
      ∧ Segment.error? ⟨.blank, ['\n'], line⟩ = none := ⟨rfl, rfl⟩
  constructor
  · simp only [scan, Scan.ofList, hsplit, List.filterMap_append, List.filterMap_cons, hblank,
      List.filterMap_map, List.map_filterMap]
    refine congrArg _ (List.filterMap_congr fun s _ => ?_)
    exact s.token?_down _
  · have hnone : (Segment.split first.toList).filterMap Segment.error? = [] := hfirst
    simp only [scan, Scan.ofList, hsplit, List.filterMap_append, List.filterMap_cons, hblank,
      List.filterMap_map, List.map_filterMap, hnone, List.nil_append]
    exact List.filterMap_congr fun s _ => s.error?_down _

end Lox
