import Lox.Grammar.Terminals
import Lox.Proofs.Token.Joined

/-!
# The terminals of a scanned text

A text is cut into terminals from the left: at every place the longest match of any terminal is
taken, and of several terminals with this match the first in their list counts.  White space and
comments are left out, and a place where nothing matches ends the attempt.

Scanning finds the same tokens in another way, by a decision on the first character.  Only white
space is cut differently, into single characters instead of one run.

**Main definition.**
* `Tokenized`: the tokens into which a text is cut.

**Result.**
* `tokenized_iff`: the tokens are those that scanning finds, if it finds no errors.
-/

namespace Lox
namespace Grammar

/-- A terminal matches the first characters of a text. -/
def Terminal.MatchesAt (t : Terminal) (text : List Char) (n : Nat) : Prop :=
  n ≤ text.length ∧ t.pattern.Matches (text.take n)

/-- The longest match at the start of a text, and what it counts as. -/
structure TakesAt (text : List Char) (n : Nat) (kind : Option TokenKind) : Prop where
  longest : ∀ t ∈ terminals, ∀ m, t.MatchesAt text m → m ≤ n
  /-- The first of all terminals with this match. -/
  first : ∃ before t after, terminals = before ++ t :: after
    ∧ t.kind = kind ∧ t.MatchesAt text n ∧ ∀ u ∈ before, ¬ u.MatchesAt text n

/-- The tokens of a text that starts on the given line; each has the line on which it ends. -/
inductive Tokenized : Int → List Char → List Token → Prop
  | done
      {line : Int} :
      Tokenized line [] []
  | token
      {line : Int}
      {text : List Char}
      {n : Nat}
      {kind : TokenKind}
      {tokens : List Token}
      (htakes : TakesAt text n (some kind))
      (hrest : Tokenized (line + (text.take n).count '\n') (text.drop n) tokens) :
      Tokenized line text
        (⟨kind, String.ofList (text.take n), line + (text.take n).count '\n'⟩ :: tokens)
  | leftOut
      {line : Int}
      {text : List Char}
      {n : Nat}
      {tokens : List Token}
      (htakes : TakesAt text n none)
      (hrest : Tokenized (line + (text.take n).count '\n') (text.drop n) tokens) :
      Tokenized line text tokens

namespace Pattern

variable {a b : Pattern} {p : Char → Bool} {c : Char} {s text : List Char}

/-- A pattern for one character matches the characters that it accepts. -/
theorem matches_one : Matches (.one p) text ↔ ∃ c, text = [c] ∧ p c = true := by
  constructor
  · rintro (_ | h)
    exact ⟨_, rfl, h⟩
  · rintro ⟨c, rfl, h⟩
    exact .one h

/-- Two patterns in a row match a text in two parts. -/
theorem matches_seq :
    Matches (.seq a b) text ↔ ∃ s t, text = s ++ t ∧ Matches a s ∧ Matches b t := by
  constructor
  · rintro (_ | _ | ⟨hs, ht⟩)
    exact ⟨_, _, rfl, hs, ht⟩
  · rintro ⟨s, t, rfl, hs, ht⟩
    exact .seq hs ht

/-- An optional pattern also matches the empty text. -/
theorem matches_optional : Matches (.optional a) text ↔ text = [] ∨ Matches a text := by
  constructor
  · rintro (_ | _ | _ | h | h)
    · cases h
      exact .inl rfl
    · exact .inr h
  · rintro (rfl | h)
    · exact .left .empty
    · exact .right h

/-- Any number of characters: all of them are accepted. -/
theorem matches_many_one : Matches (.many (.one p)) text ↔ ∀ c ∈ text, p c = true := by
  constructor
  · intro h
    generalize hpattern : Pattern.many (.one p) = pattern at h
    induction h with
    | done => simp
    | more hs _ _ ih =>
        cases hpattern
        obtain ⟨c, rfl, hc⟩ := matches_one.mp hs
        simpa [hc] using ih rfl
    | _ => cases hpattern
  · intro h
    induction text with
    | nil => exact .done
    | cons c rest ih =>
        have hall := List.forall_mem_cons.mp h
        exact .more (s := [c]) (.one hall.1) (ih hall.2)

/-- A fixed text matches itself only. -/
theorem matches_ofText : Matches (.ofText s) text ↔ text = s := by
  induction s generalizing text with
  | nil =>
      constructor
      · rintro (_ | _)
        rfl
      · rintro rfl
        exact .empty
  | cons c rest ih =>
      simp only [ofText, matches_seq, matches_one, ih]
      constructor
      · rintro ⟨_, _, rfl, ⟨d, rfl, hd⟩, rfl⟩
        rw [eq_of_beq hd]
        rfl
      · rintro rfl
        exact ⟨[c], rest, rfl, ⟨c, rfl, beq_self_eq_true c⟩, rfl⟩

/-- One character, and then any number of others. -/
theorem matches_oneThenMany {q : Char → Bool} :
    Matches (.seq (.one p) (.many (.one q))) text
      ↔ ∃ c rest, text = c :: rest ∧ p c = true ∧ ∀ d ∈ rest, q d = true := by
  simp only [matches_seq, matches_one, matches_many_one]
  constructor
  · rintro ⟨_, rest, rfl, ⟨c, rfl, hc⟩, hrest⟩
    exact ⟨c, rest, rfl, hc, hrest⟩
  · rintro ⟨c, rest, rfl, hc, hrest⟩
    exact ⟨[c], rest, rfl, ⟨c, rfl, hc⟩, hrest⟩

end Pattern

/-- A terminal with a fixed text. -/
def fixedTerminal (x : String × TokenKind) : Terminal :=
  ⟨some x.2, .ofText x.1.toList⟩

/-- The terminals without a fixed text. -/
def otherTerminals : List Terminal :=
  [⟨some .identifier, identifier⟩, ⟨some .number, number⟩, ⟨some .string, string⟩,
    ⟨none, comment⟩, ⟨none, space⟩]

/-- The terminals are the fixed texts and the others, in this order. -/
theorem terminals_eq : terminals = fixedTerminals.map fixedTerminal ++ otherTerminals := rfl

section Matches

open Segment

variable {c : Char} {rest : List Char} {n : Nat} {kind : Option TokenKind}

/-- The first characters of a text all satisfy a test if and only if there are enough of those. -/
theorem forall_mem_take_iff
    {p : Char → Bool}
    (text : List Char)
    (hn : n ≤ text.length) :
    (∀ c ∈ text.take n, p c = true) ↔ n ≤ countWhile p text := by
  unfold countWhile
  induction text generalizing n with
  | nil => simpa using hn
  | cons c rest ih =>
      cases n with
      | zero => simp
      | succ n =>
          rw [List.take_succ_cons, List.forall_mem_cons, ih (by simpa using hn),
            List.takeWhile_cons]
          split
          · next hc => simp [hc]
          · next hc => simp [hc]

/-- A fixed text matches where the rest starts with it. -/
theorem matchesAt_fixed {word text : List Char} :
    Terminal.MatchesAt ⟨kind, .ofText word⟩ text n ↔ n = word.length ∧ word <+: text := by
  rw [Terminal.MatchesAt, Pattern.matches_ofText]
  constructor
  · rintro ⟨hn, rfl⟩
    exact ⟨(List.length_take_of_le hn).symm, List.take_prefix n _⟩
  · rintro ⟨rfl, hword⟩
    exact ⟨hword.length_le, (List.prefix_iff_eq_take.mp hword).symm⟩

/-- A character of one kind and then characters of another kind. -/
theorem matchesAt_oneThenMany {p q : Char → Bool} :
    Terminal.MatchesAt ⟨kind, .seq (.one p) (.many (.one q))⟩ (c :: rest) n
      ↔ 0 < n ∧ p c = true ∧ n ≤ countWhile q rest + 1 := by
  rw [Terminal.MatchesAt, Pattern.matches_oneThenMany]
  cases n with
  | zero => simp
  | succ n =>
      simp only [List.length_cons, Nat.add_le_add_iff_right, List.take_succ_cons, List.cons.injEq]
      constructor
      · rintro ⟨hn, _, _, ⟨rfl, rfl⟩, hc, hall⟩
        exact ⟨n.succ_pos, hc, (forall_mem_take_iff rest hn).mp hall⟩
      · rintro ⟨-, hc, hall⟩
        have hn : n ≤ rest.length := hall.trans (List.takeWhile_prefix q).length_le
        exact ⟨hn, c, rest.take n, ⟨rfl, rfl⟩, hc, (forall_mem_take_iff rest hn).mpr hall⟩

/-- The range of the low line holds one character. -/
theorem between_lowLine (c : Char) :
    (decide ('_' ≤ c) && decide (c ≤ '_')) = (c == '_') := by
  rw [Bool.eq_iff_iff]
  simp only [Bool.and_eq_true, decide_eq_true_eq, beq_iff_eq]
  exact ⟨fun h => le_antisymm h.2 h.1, fun h => by simp [h]⟩

/-- The letters of the grammar are those of the scanner. -/
theorem letter_eq : letter = .one isLetter := by
  refine congrArg Pattern.one (funext fun c => ?_)
  simp only [List.any_cons, List.any_nil, Bool.or_false, between_lowLine, isLetter]
  exact (Bool.or_left_comm ..).trans (Bool.or_assoc ..).symm

/-- The letters and digits of the grammar are the parts of words. -/
theorem letterOrDigit_eq : letterOrDigit = .one isWordPart := by
  refine congrArg Pattern.one (funext fun c => ?_)
  simp only [List.any_cons, List.any_nil, Bool.or_false, between_lowLine, isWordPart, isLetter,
    isDigit]
  ac_rfl

/-- The digits of the grammar are those of the scanner. -/
theorem digit_eq : Pattern.ofRanges [('0', '9')] = .one isDigit := by
  refine congrArg Pattern.one (funext fun c => ?_)
  simp [isDigit]

/-- The blanks of the grammar are those of the scanner. -/
theorem blanks_eq : Pattern.ofChars [' ', '\t', '\r', '\n'] = .one isBlank := by
  refine congrArg Pattern.one (funext fun c => ?_)
  rw [Bool.eq_iff_iff]
  simp only [List.contains_eq_mem, List.mem_cons, List.not_mem_nil, or_false, decide_eq_true_eq,
    isBlank, Bool.or_eq_true, beq_iff_eq]
  tauto

/-- An identifier starts with a letter and goes on with parts of words. -/
theorem matchesAt_identifier :
    Terminal.MatchesAt ⟨kind, identifier⟩ (c :: rest) n
      ↔ 0 < n ∧ isLetter c = true ∧ n ≤ countWhile isWordPart rest + 1 := by
  rw [identifier, letter_eq, letterOrDigit_eq, matchesAt_oneThenMany]

/-- White space is a run of blanks that is not empty. -/
theorem matchesAt_space :
    Terminal.MatchesAt ⟨kind, space⟩ (c :: rest) n
      ↔ 0 < n ∧ isBlank c = true ∧ n ≤ countWhile isBlank rest + 1 := by
  rw [space, blanks_eq, Pattern.atLeastOnce, matchesAt_oneThenMany]

/-- A terminal matches if the rest starts with a text of its pattern. -/
theorem matchesAt_iff {t : Terminal} {text : List Char} :
    t.MatchesAt text n
      ↔ ∃ used more, text = used ++ more ∧ used.length = n ∧ t.pattern.Matches used := by
  constructor
  · rintro ⟨hn, hmatches⟩
    exact ⟨text.take n, text.drop n, (List.take_append_drop n text).symm,
      List.length_take_of_le hn, hmatches⟩
  · rintro ⟨used, more, rfl, rfl, hmatches⟩
    exact ⟨by simp, by rwa [List.take_left]⟩

/-- A run of characters goes on behind a text that consists of them. -/
theorem countWhile_append_of_all
    {p : Char → Bool}
    {s : List Char}
    (hs : ∀ c ∈ s, p c = true)
    (more : List Char) :
    countWhile p (s ++ more) = s.length + countWhile p more := by
  rw [countWhile, List.takeWhile_append_of_pos hs, List.length_append, countWhile]

/-- What a test holds of up to some place, and the text behind that place. -/
theorem exists_countWhile
    (p : Char → Bool)
    (text : List Char) :
    ∃ s more, text = s ++ more ∧ s.length = countWhile p text ∧ (∀ c ∈ s, p c = true)
      ∧ ∀ c ∈ more.head?, p c = false :=
  ⟨text.takeWhile p, text.dropWhile p, (List.takeWhile_append_dropWhile ..).symm, rfl,
    fun _ hc => List.mem_takeWhile_imp hc, fun c hc => by
      have := List.head?_dropWhile_not p text
      rw [Option.mem_def.mp hc] at this
      simpa using this⟩

/-- A comment starts with two slashes and ends before the next line. -/
theorem matchesAt_comment :
    Terminal.MatchesAt ⟨kind, comment⟩ (c :: rest) n
      ↔ c = '/' ∧ rest.head? = some '/' ∧ 2 ≤ n ∧ n ≤ countWhile (· != '\n') rest + 1 := by
  simp only [matchesAt_iff, comment, Pattern.matches_seq, Pattern.matches_ofText,
    Pattern.otherThan, Pattern.matches_many_one]
  constructor
  · rintro ⟨_, more, heq, rfl, _, inside, rfl, rfl, hinside⟩
    obtain ⟨rfl, rfl⟩ : c = '/' ∧ rest = '/' :: inside ++ more := by simpa using heq
    have hcount := countWhile_append_of_all (p := (· != '\n')) (s := '/' :: inside)
      (by simpa using hinside) more
    refine ⟨rfl, rfl, by simp, ?_⟩
    rw [hcount]
    simp only [List.cons_append, List.nil_append, List.length_cons]
    omega
  · rintro ⟨rfl, hhead, htwo, hcount⟩
    obtain ⟨rest, rfl⟩ : ∃ more, rest = '/' :: more := by
      cases rest with
      | nil => simp at hhead
      | cons d more => exact ⟨more, by rw [Option.some.inj hhead]⟩
    have hslash := countWhile_append_of_all (p := (· != '\n')) (s := ['/']) (by simp) rest
    have hn : n - 2 ≤ countWhile (· != '\n') rest := by
      simp only [List.cons_append, List.nil_append, List.length_singleton] at hslash
      omega
    have hle := hn.trans (countWhile_le _ rest)
    refine ⟨['/', '/'] ++ rest.take (n - 2), rest.drop (n - 2), by simp, ?_, _, _, rfl, rfl,
      (forall_mem_take_iff rest hle).mpr hn⟩
    rw [List.length_append, List.length_take_of_le hle, List.length_cons, List.length_singleton]
    omega

/-- A string ends at the first quote behind its opening one. -/
theorem matchesAt_string :
    Terminal.MatchesAt ⟨kind, string⟩ (c :: rest) n
      ↔ c = '"' ∧ 0 < n ∧ stringStart rest = (.token .string, n - 1) := by
  simp only [matchesAt_iff, string, Pattern.matches_seq, Pattern.matches_ofText,
    Pattern.otherThan, Pattern.matches_many_one]
  constructor
  · rintro ⟨_, more, heq, rfl, _, _, rfl, rfl, inside, _, rfl, hinside, rfl⟩
    obtain ⟨rfl, rfl⟩ : c = '"' ∧ rest = inside ++ '"' :: more := by simpa using heq
    have hcount : countWhile (· != '"') (inside ++ '"' :: more) = inside.length := by
      rw [countWhile_append_of_all hinside]
      simp [countWhile]
    refine ⟨rfl, by simp, ?_⟩
    rw [stringStart, hcount]
    simp
  · rintro ⟨rfl, hpos, hstart⟩
    obtain ⟨inside, more, rfl, hlength, hinside, hmore⟩ := exists_countWhile (· != '"') rest
    rw [stringStart, ← hlength] at hstart
    cases more with
    | nil => simp at hstart
    | cons d more =>
        obtain rfl : d = '"' := by simpa using hmore d rfl
        have hn : inside.length + 1 = n - 1 := by simpa using hstart
        refine ⟨['"'] ++ (inside ++ ['"']), more, by simp, ?_, _, _, rfl, rfl, _, _, rfl,
          hinside, rfl⟩
        simp only [List.length_append, List.length_singleton]
        omega

/-- Digits in a row, and there is one at least. -/
theorem matches_digits {text : List Char} :
    digits.Matches text ↔ text ≠ [] ∧ ∀ c ∈ text, isDigit c = true := by
  rw [digits, digit_eq, Pattern.atLeastOnce, Pattern.matches_oneThenMany]
  cases text <;> simp

/-- A number is whole, or it has a fraction behind a point. -/
theorem matches_number {text : List Char} :
    number.Matches text ↔ ∃ whole, whole ≠ [] ∧ (∀ c ∈ whole, isDigit c = true)
      ∧ (text = whole ∨ ∃ fraction, fraction ≠ [] ∧ (∀ c ∈ fraction, isDigit c = true)
        ∧ text = whole ++ '.' :: fraction) := by
  simp only [number, Pattern.matches_seq, Pattern.matches_optional, Pattern.matches_ofText,
    matches_digits]
  constructor
  · rintro ⟨whole, _, rfl, ⟨hne, hwhole⟩, rfl | ⟨_, fraction, rfl, rfl, hfraction⟩⟩
    · exact ⟨whole, hne, hwhole, .inl (List.append_nil whole)⟩
    · exact ⟨whole, hne, hwhole, .inr ⟨fraction, hfraction.1, hfraction.2, rfl⟩⟩
  · rintro ⟨whole, hne, hwhole, rfl | ⟨fraction, hfraction, hall, rfl⟩⟩
    · exact ⟨text, [], (List.append_nil text).symm, ⟨hne, hwhole⟩, .inl rfl⟩
    · exact ⟨whole, _, rfl, ⟨hne, hwhole⟩, .inr ⟨['.'], fraction, rfl, rfl, hfraction, hall⟩⟩

/-- How many characters behind the first digits belong to a number. -/
def fractionExtent : List Char → Nat
  | '.' :: rest => if countWhile isDigit rest = 0 then 0 else 1 + countWhile isDigit rest
  | _ => 0

/-- A number takes a whole run of digits, and a fraction if there is one. -/
theorem numberExtent_append
    {whole more : List Char}
    (hwhole : ∀ c ∈ whole, isDigit c = true)
    (hmore : ∀ c ∈ more.head?, isDigit c = false) :
    numberExtent (whole ++ more) = whole.length + fractionExtent more := by
  have hcount : countWhile isDigit (whole ++ more) = whole.length := by
    rw [countWhile_append_of_all hwhole]
    cases more with
    | nil => rfl
    | cons c rest => simp [countWhile, hmore c rfl]
  rw [numberExtent, hcount, List.drop_left]
  by_cases hpoint : ∃ fraction, more = '.' :: fraction
  · obtain ⟨fraction, rfl⟩ := hpoint
    simp only [fractionExtent, beq_iff_eq]
    split <;> omega
  · have hnone : fractionExtent more = 0 := by
      unfold fractionExtent
      split
      · exact absurd ⟨_, rfl⟩ hpoint
      · rfl
    rw [hnone]
    split
    · exact absurd ⟨_, rfl⟩ hpoint
    · rfl

/-- No number is longer than the one that the scanner takes. -/
theorem matchesAt_number_le
    (h : Terminal.MatchesAt ⟨kind, number⟩ (c :: rest) n) :
    isDigit c = true ∧ n ≤ numberExtent rest + 1 := by
  obtain ⟨used, more, heq, rfl, hmatches⟩ := matchesAt_iff.mp h
  obtain ⟨whole, hne, hdigits, hused⟩ := matches_number.mp hmatches
  obtain ⟨d, whole, rfl⟩ := List.exists_cons_of_ne_nil hne
  obtain ⟨hd, hwhole⟩ := List.forall_mem_cons.mp hdigits
  rcases hused with rfl | ⟨fraction, hfraction, hall, rfl⟩
  · obtain ⟨rfl, rfl⟩ := List.cons.inj heq
    obtain ⟨s, behind, hsplit, hlength, hs, hbehind⟩ := exists_countWhile isDigit (whole ++ more)
    have hcount := countWhile_append_of_all hwhole more
    refine ⟨hd, ?_⟩
    change _ ≤ numberExtent (whole ++ more) + 1
    rw [hsplit, numberExtent_append hs hbehind, List.length_cons]
    omega
  · obtain ⟨rfl, rfl⟩ : c = d ∧ rest = whole ++ '.' :: (fraction ++ more) := by simpa using heq
    have hcount := countWhile_append_of_all hall more
    have hpos : 0 < fraction.length := List.length_pos_iff.mpr hfraction
    have hpoint : fractionExtent ('.' :: (fraction ++ more)) =
        1 + countWhile isDigit (fraction ++ more) := if_neg (by omega)
    refine ⟨hd, ?_⟩
    rw [numberExtent_append hwhole (by simp [isDigit]), hpoint]
    simp only [List.length_append, List.length_cons]
    omega

/-- The number that the scanner takes matches. -/
theorem matchesAt_number (hc : isDigit c = true) :
    Terminal.MatchesAt ⟨kind, number⟩ (c :: rest) (numberExtent rest + 1) := by
  obtain ⟨whole, more, rfl, -, hwhole, hmore⟩ := exists_countWhile isDigit rest
  have hdigits : ∀ d ∈ c :: whole, isDigit d = true := List.forall_mem_cons.mpr ⟨hc, hwhole⟩
  rw [numberExtent_append hwhole hmore, matchesAt_iff]
  unfold fractionExtent
  split
  · next rest =>
      obtain ⟨fraction, behind, rfl, hlength, hfraction, -⟩ := exists_countWhile isDigit rest
      rw [← hlength]
      split
      · exact ⟨c :: whole, _, rfl, rfl, matches_number.mpr ⟨_, by simp, hdigits, .inl rfl⟩⟩
      · next hpos =>
          refine ⟨c :: whole ++ '.' :: fraction, behind, by simp, by simp; omega,
            matches_number.mpr ⟨_, by simp, hdigits, .inr ⟨fraction, ?_, hfraction, rfl⟩⟩⟩
          exact fun hnil => hpos (List.length_eq_zero_iff.mpr hnil)
  · exact ⟨c :: whole, more, rfl, rfl, matches_number.mpr ⟨_, by simp, hdigits, .inl rfl⟩⟩

/--
A terminal that matches is a fixed text, or the one of the others that the first character opens.
-/
theorem matchesAt_cases
    {t : Terminal}
    (ht : t ∈ terminals)
    (hmatches : t.MatchesAt (c :: rest) n) :
    (∃ x ∈ fixedTerminals, t = fixedTerminal x ∧ n = x.1.toList.length
        ∧ x.1.toList <+: c :: rest)
      ∨ (t = ⟨some .identifier, identifier⟩ ∧ isLetter c = true)
      ∨ (t = ⟨some .number, number⟩ ∧ isDigit c = true)
      ∨ (t = ⟨some .string, string⟩ ∧ c = '"')
      ∨ (t = ⟨none, comment⟩ ∧ c = '/')
      ∨ (t = ⟨none, space⟩ ∧ isBlank c = true) := by
  simp only [terminals_eq, otherTerminals, List.mem_append, List.mem_map, List.mem_cons,
    List.not_mem_nil, or_false] at ht
  rcases ht with ⟨x, hx, rfl⟩ | rfl | rfl | rfl | rfl | rfl
  · exact .inl ⟨x, hx, rfl, matchesAt_fixed.mp hmatches⟩
  · exact .inr (.inl ⟨rfl, (matchesAt_identifier.mp hmatches).2.1⟩)
  · exact .inr (.inr (.inl ⟨rfl, (matchesAt_number_le hmatches).1⟩))
  · exact .inr (.inr (.inr (.inl ⟨rfl, (matchesAt_string.mp hmatches).1⟩)))
  · exact .inr (.inr (.inr (.inr (.inl ⟨rfl, (matchesAt_comment.mp hmatches).1⟩))))
  · exact .inr (.inr (.inr (.inr (.inr ⟨rfl, (matchesAt_space.mp hmatches).2.1⟩))))

end Matches

section Openings

open Segment

/-- What a segment is among terminals, from its kind and extent: blank characters are one run. -/
def TakenAs (c : Char) (rest : List Char) : SegmentKind × Nat → Prop
  | (.token kind, n) => TakesAt (c :: rest) (n + 1) (some kind)
  | (.comment, n) => TakesAt (c :: rest) (n + 1) none
  | (.blank, _) => isBlank c = true ∧ TakesAt (c :: rest) (countWhile isBlank rest + 1) none
  | _ => ∀ t ∈ terminals, ∀ m, ¬ t.MatchesAt (c :: rest) m

/-- No other terminal than a fixed text opens with this character. -/
structure OpensFixed (c : Char) : Prop where
  letter : isLetter c = false
  digit : isDigit c = false
  blank : isBlank c = false
  quote : c ≠ '"'
  slash : c ≠ '/'

/-- A mark of punctuation is the only fixed text that it opens. -/
theorem opensFixed_of_punctuation
    {c : Char}
    {kind : TokenKind}
    (h : TokenKind.ofPunctuation? c = some kind) :
    OpensFixed c ∧ (String.ofList [c], kind) ∈ fixedTerminals := by
  unfold TokenKind.ofPunctuation? at h
  split at h <;> cases h
  all_goals exact ⟨⟨by decide, by decide, by decide, by decide, by decide⟩, by decide⟩

/-- A mark of comparison opens two fixed texts, with and without an equals sign. -/
theorem opensFixed_of_comparison
    {c : Char}
    {alone paired : TokenKind}
    (h : TokenKind.ofComparison? c = some (alone, paired)) :
    OpensFixed c ∧ (String.ofList [c], alone) ∈ fixedTerminals
      ∧ (String.ofList [c, '='], paired) ∈ fixedTerminals := by
  unfold TokenKind.ofComparison? at h
  split at h <;> cases h
  all_goals exact ⟨⟨by decide, by decide, by decide, by decide, by decide⟩, by decide, by decide⟩

section Fixed

variable {x : String × TokenKind} {c : Char}

/-- The fixed text that a mark of punctuation opens. -/
theorem fixed_punctuation
    (hx : x ∈ fixedTerminals)
    (hc : x.1.toList.head? = some c)
    {kind : TokenKind}
    (hkind : TokenKind.ofPunctuation? c = some kind) :
    x.1.toList = [c] ∧ x.2 = kind := by
  have hall : (fixedTerminals.all fun x => x.1.toList.head?.all fun c =>
      (TokenKind.ofPunctuation? c).all fun kind => x.1.toList == [c] && x.2 == kind) = true := by
    cbv
  have hthis := List.all_eq_true.mp hall x hx
  simpa [hc, hkind] using hthis

/-- The fixed texts that a mark of comparison opens. -/
theorem fixed_comparison
    (hx : x ∈ fixedTerminals)
    (hc : x.1.toList.head? = some c)
    {alone paired : TokenKind}
    (hkinds : TokenKind.ofComparison? c = some (alone, paired)) :
    x.1.toList = [c] ∧ x.2 = alone ∨ x.1.toList = [c, '='] ∧ x.2 = paired := by
  have hall : (fixedTerminals.all fun x => x.1.toList.head?.all fun c =>
      (TokenKind.ofComparison? c).all fun kinds =>
        x.1.toList == [c] && x.2 == kinds.1 ||
          x.1.toList == [c, '='] && x.2 == kinds.2) = true := by
    cbv
  have hthis := List.all_eq_true.mp hall x hx
  simpa [hc, hkinds] using hthis

/-- The fixed texts that other characters open: the slash and the reserved words. -/
theorem fixed_others
    (hx : x ∈ fixedTerminals)
    (hc : x.1.toList.head? = some c)
    (hpunctuation : TokenKind.ofPunctuation? c = none)
    (hcomparison : TokenKind.ofComparison? c = none) :
    c = '/' ∧ x.1.toList = ['/'] ∧ x.2 = .slash
      ∨ isLetter c = true ∧ x ∈ reservedWords ∧ ∀ d ∈ x.1.toList, isWordPart d = true := by
  have hall : (fixedTerminals.all fun x => x.1.toList.head?.all fun c =>
      (TokenKind.ofPunctuation? c).isSome || (TokenKind.ofComparison? c).isSome
        || c == '/' && x.1.toList == ['/'] && x.2 == .slash
        || isLetter c && reservedWords.contains x && x.1.toList.all isWordPart) = true := by
    cbv
  have hthis := List.all_eq_true.mp hall x hx
  simpa [hc, hpunctuation, hcomparison, and_assoc] using hthis

/-- The reserved words are fixed texts. -/
theorem fixed_of_reserved (hx : x ∈ reservedWords) : x ∈ fixedTerminals := by
  have hall : (reservedWords.all fixedTerminals.contains) = true := by cbv
  simpa using List.all_eq_true.mp hall x hx

/-- A reserved word has its own kind. -/
theorem ofWord_of_mem (hx : x ∈ reservedWords) :
    TokenKind.ofWord x.1 = x.2 ∧ x.2 ≠ .identifier := by
  have hall : (reservedWords.all fun x =>
      TokenKind.ofWord x.1 == x.2 && x.2 != .identifier) = true := by cbv
  simpa using List.all_eq_true.mp hall x hx

/-- A word that is no identifier is reserved. -/
theorem mem_of_ofWord
    {word : String}
    (h : TokenKind.ofWord word ≠ .identifier) :
    (word, TokenKind.ofWord word) ∈ reservedWords := by
  unfold TokenKind.ofWord at h ⊢
  cases hlookup : reservedWords.lookup word with
  | none => simp [hlookup] at h
  | some kind =>
      obtain ⟨_, _, hsplit, -⟩ := List.lookup_eq_some_iff.mp hlookup
      exact hsplit ▸ by simp

/-- No fixed text is an identifier. -/
theorem fixed_ne_identifier (hx : x ∈ fixedTerminals) : x.2 ≠ .identifier := by
  have hall : (fixedTerminals.all fun x => x.2 != .identifier) = true := by cbv
  simpa using List.all_eq_true.mp hall x hx

/-- No fixed text stands twice in the list. -/
theorem fixed_nodup : (fixedTerminals.map fun x => x.1.toList).Nodup := by
  have h : decide (fixedTerminals.map fun x => x.1.toList).Nodup = true := by cbv
  exact of_decide_eq_true h

end Fixed

/-- A fixed text is taken if no terminal matches more. -/
theorem takesAt_fixed
    {x : String × TokenKind}
    {s : List Char}
    (hx : x ∈ fixedTerminals)
    (hstarts : x.1.toList <+: s)
    (hlongest : ∀ t ∈ terminals, ∀ m, t.MatchesAt s m → m ≤ x.1.toList.length) :
    TakesAt s x.1.toList.length (some x.2) := by
  obtain ⟨before, after, hsplit⟩ := List.append_of_mem hx
  have hterminals : terminals = before.map fixedTerminal ++ fixedTerminal x ::
      (after.map fixedTerminal ++ otherTerminals) := by
    rw [terminals_eq, hsplit, List.map_append, List.map_cons, List.append_assoc, List.cons_append]
  refine ⟨hlongest, _, _, _, hterminals, rfl, matchesAt_fixed.mpr ⟨rfl, hstarts⟩, ?_⟩
  rintro u hu hmatches
  obtain ⟨y, hy, rfl⟩ := List.mem_map.mp hu
  obtain ⟨hlength, hy'⟩ := matchesAt_fixed.mp hmatches
  have hsame : y.1.toList = x.1.toList :=
    (List.prefix_of_prefix_length_le hy' hstarts hlength.ge).eq_of_length hlength.symm
  have hnodup := fixed_nodup
  rw [hsplit, List.map_append, List.map_cons] at hnodup
  refine List.disjoint_of_nodup_append hnodup (a := x.1.toList) ?_ List.mem_cons_self
  exact List.mem_map.mpr ⟨y, hy, hsame⟩

variable {c : Char} {rest : List Char}

/-- A fixed text that matches begins with the first character. -/
theorem head_of_starts
    {x : String × TokenKind}
    (hx : x ∈ fixedTerminals)
    (hstarts : x.1.toList <+: c :: rest) :
    x.1.toList.head? = some c := by
  have hne : (fixedTerminals.all fun x => !x.1.toList.isEmpty) = true := by cbv
  obtain ⟨more, hmore⟩ := hstarts
  cases hlist : x.1.toList with
  | nil => simpa [hlist] using List.all_eq_true.mp hne x hx
  | cons d word =>
      rw [hlist, List.cons_append] at hmore
      rw [List.head?_cons, (List.cons.inj hmore).1]

section Takes

variable {kind : TokenKind}

/-- A mark of punctuation is taken alone. -/
theorem takesAt_punctuation (hkind : TokenKind.ofPunctuation? c = some kind) :
    TakesAt (c :: rest) 1 (some kind) := by
  obtain ⟨hopens, hmem⟩ := opensFixed_of_punctuation hkind
  have hlongest : ∀ t ∈ terminals, ∀ m, t.MatchesAt (c :: rest) m → m ≤ 1 := by
    intro t ht m hmatches
    rcases matchesAt_cases ht hmatches with ⟨x, hx, -, rfl, hstarts⟩ | ⟨-, h⟩ | ⟨-, h⟩ | ⟨-, h⟩ |
      ⟨-, h⟩ | ⟨-, h⟩
    · simp [(fixed_punctuation hx (head_of_starts hx hstarts) hkind).1]
    · simp [hopens.letter] at h
    · simp [hopens.digit] at h
    · exact absurd h hopens.quote
    · exact absurd h hopens.slash
    · simp [hopens.blank] at h
  simpa using takesAt_fixed (s := c :: rest) hmem (by simp) (by simpa using hlongest)

/-- A mark of comparison is taken together with an equals sign behind it. -/
theorem takenAs_comparison
    {alone paired : TokenKind}
    (hkinds : TokenKind.ofComparison? c = some (alone, paired)) :
    TakenAs c rest
      (if rest.head? == some '=' then (.token paired, 1) else (.token alone, 0)) := by
  obtain ⟨hopens, halone, hpaired⟩ := opensFixed_of_comparison hkinds
  have hlongest : ∀ t ∈ terminals, ∀ m, t.MatchesAt (c :: rest) m →
      m ≤ if rest.head? = some '=' then 2 else 1 := by
    intro t ht m hmatches
    rcases matchesAt_cases ht hmatches with ⟨x, hx, -, rfl, hstarts⟩ | ⟨-, h⟩ | ⟨-, h⟩ | ⟨-, h⟩ |
      ⟨-, h⟩ | ⟨-, h⟩
    · rcases fixed_comparison hx (head_of_starts hx hstarts) hkinds with ⟨h, -⟩ | ⟨h, -⟩
      · rw [h, List.length_singleton]
        split <;> omega
      · rw [h] at hstarts
        obtain ⟨more, hmore⟩ := hstarts
        obtain ⟨-, rfl⟩ := List.cons.inj hmore
        simp [h]
    · simp [hopens.letter] at h
    · simp [hopens.digit] at h
    · exact absurd h hopens.quote
    · exact absurd h hopens.slash
    · simp [hopens.blank] at h
  by_cases hhead : rest.head? = some '='
  · rw [if_pos hhead] at hlongest
    obtain ⟨more, rfl⟩ := List.head?_eq_some_iff.mp hhead
    have htakes := takesAt_fixed (s := c :: '=' :: more) hpaired (by simp)
      (by simpa using hlongest)
    rw [String.toList_ofList] at htakes
    exact htakes
  · rw [if_neg hhead] at hlongest
    have htakes := takesAt_fixed (s := c :: rest) halone (by simp) (by simpa using hlongest)
    rw [String.toList_ofList] at htakes
    rw [if_neg (by simpa using hhead)]
    exact htakes

end Takes

/-- A match at a text that begins with neither punctuation nor a comparison. -/
inductive MatchesOpen (c : Char) (rest : List Char) : Terminal → Nat → Prop
  | slash
      (hc : c = '/') :
      MatchesOpen c rest ⟨some .slash, .ofText ['/']⟩ 1
  | word
      {x : String × TokenKind}
      (hc : isLetter c = true)
      (hx : x ∈ reservedWords)
      (hstarts : x.1.toList <+: c :: rest)
      (hle : x.1.toList.length ≤ countWhile isWordPart rest + 1) :
      MatchesOpen c rest (fixedTerminal x) x.1.toList.length
  | identifier
      {n : Nat}
      (hc : isLetter c = true)
      (hle : n ≤ countWhile isWordPart rest + 1) :
      MatchesOpen c rest ⟨some .identifier, identifier⟩ n
  | number
      {n : Nat}
      (hc : isDigit c = true)
      (hle : n ≤ numberExtent rest + 1) :
      MatchesOpen c rest ⟨some .number, number⟩ n
  | string
      {n : Nat}
      (hc : c = '"')
      (hpos : 0 < n)
      (hstart : stringStart rest = (.token .string, n - 1)) :
      MatchesOpen c rest ⟨some .string, string⟩ n
  | comment
      {n : Nat}
      (hc : c = '/')
      (hhead : rest.head? = some '/')
      (htwo : 2 ≤ n)
      (hle : n ≤ countWhile (· != '\n') rest + 1) :
      MatchesOpen c rest ⟨none, comment⟩ n
  | space
      {n : Nat}
      (hc : isBlank c = true)
      (hle : n ≤ countWhile isBlank rest + 1) :
      MatchesOpen c rest ⟨none, space⟩ n

section Open

variable
  (hpunctuation : TokenKind.ofPunctuation? c = none)
  (hcomparison : TokenKind.ofComparison? c = none)
include hpunctuation hcomparison

/-- A terminal matches only where the first character opens it. -/
theorem matchesOpen
    {t : Terminal}
    {m : Nat}
    (ht : t ∈ terminals)
    (hmatches : t.MatchesAt (c :: rest) m) :
    MatchesOpen c rest t m := by
  rcases matchesAt_cases ht hmatches with ⟨x, hx, rfl, rfl, hstarts⟩ | ⟨rfl, h⟩ | ⟨rfl, h⟩ |
    ⟨rfl, h⟩ | ⟨rfl, h⟩ | ⟨rfl, h⟩
  · rcases fixed_others hx (head_of_starts hx hstarts) hpunctuation hcomparison with
      ⟨rfl, hword, hkind⟩ | ⟨hletter, hreserved, hall⟩
    · rw [fixedTerminal, hword, hkind]
      exact .slash rfl
    · refine .word hletter hreserved hstarts ?_
      obtain ⟨more, hmore⟩ := hstarts
      have hcount := countWhile_append_of_all hall more
      have hself : countWhile isWordPart (c :: rest) = countWhile isWordPart rest + 1 := by
        simp [countWhile, isWordPart, hletter]
      rw [← hself, ← hmore]
      omega
  · exact .identifier h (matchesAt_identifier.mp hmatches).2.2
  · exact .number h (matchesAt_number_le hmatches).2
  · obtain ⟨-, hpos, hstart⟩ := matchesAt_string.mp hmatches
    exact .string h hpos hstart
  · obtain ⟨-, hhead, htwo, hle⟩ := matchesAt_comment.mp hmatches
    exact .comment h hhead htwo hle
  · exact .space h (matchesAt_space.mp hmatches).2.2

/-- A match that is the longest, and of no other terminal. -/
theorem takesAt_only
    {t : Terminal}
    {n : Nat}
    (ht : t ∈ terminals)
    (hmatches : t.MatchesAt (c :: rest) n)
    (honly : ∀ u m, MatchesOpen c rest u m → m ≤ n ∧ (m = n → u = t)) :
    TakesAt (c :: rest) n t.kind := by
  obtain ⟨before, after, hsplit, hfirst⟩ := List.eq_append_cons_of_mem ht
  refine ⟨fun u hu m h => (honly u m (matchesOpen hpunctuation hcomparison hu h)).1,
    before, t, after, hsplit, rfl, hmatches, fun u hu h => ?_⟩
  have hmem : u ∈ terminals := by
    rw [hsplit]
    exact List.mem_append_left _ hu
  exact hfirst ((honly u n (matchesOpen hpunctuation hcomparison hmem h)).2 rfl ▸ hu)

/-- A slash is taken alone, or with the comment that it starts. -/
theorem takenAs_slash (hc : c = '/') : TakenAs c rest (slashStart rest) := by
  subst hc
  unfold slashStart
  by_cases hhead : rest.head? = some '/'
  · obtain ⟨more, rfl⟩ := List.head?_eq_some_iff.mp hhead
    have hpos : 0 < countWhile (· != '\n') ('/' :: more) := by simp [countWhile]
    rw [if_pos (by simp)]
    refine takesAt_only hpunctuation hcomparison (t := ⟨none, comment⟩)
      (by simp [terminals_eq, otherTerminals])
      (matchesAt_comment.mpr ⟨rfl, hhead, by omega, by omega⟩) fun u m h => ?_
    cases h with
    | slash => exact ⟨by omega, fun h => absurd h (by omega)⟩
    | comment _ _ _ hle => exact ⟨hle, fun _ => rfl⟩
    | _ hc => exact absurd hc (by decide)
  · rw [if_neg (by simpa using hhead)]
    refine takesAt_only hpunctuation hcomparison (t := ⟨some .slash, .ofText ['/']⟩) ?_
      (matchesAt_fixed.mpr ⟨rfl, by simp⟩) fun u m h => ?_
    · exact List.mem_append_left _ (List.mem_map.mpr ⟨("/", .slash), by simp [fixedTerminals], rfl⟩)
    · cases h with
      | slash => exact ⟨le_rfl, fun _ => rfl⟩
      | comment _ hhead' => exact absurd hhead' hhead
      | _ hc => exact absurd hc (by decide)

/-- Blanks are left out together. -/
theorem takesAt_blank (hc : isBlank c = true) :
    TakesAt (c :: rest) (countWhile isBlank rest + 1) none := by
  refine takesAt_only hpunctuation hcomparison (t := ⟨none, space⟩)
    (by simp [terminals_eq, otherTerminals])
    (matchesAt_space.mpr ⟨Nat.succ_pos _, hc, le_rfl⟩) fun u m h => ?_
  have hcases : c = ' ' ∨ c = '\r' ∨ c = '\t' ∨ c = '\n' := by
    simpa [isBlank, or_assoc] using hc
  cases h with
  | space _ hle => exact ⟨hle, fun _ => rfl⟩
  | _ h => rcases hcases with rfl | rfl | rfl | rfl <;> exact absurd h (by decide)

/-- A quote opens a string that is closed, or nothing. -/
theorem takenAs_quote (hc : c = '"') : TakenAs c rest (stringStart rest) := by
  subst hc
  have hopen {u : Terminal} {m : Nat} (h : MatchesOpen '"' rest u m) :
      u = ⟨some .string, string⟩ ∧ 0 < m ∧ stringStart rest = (.token .string, m - 1) := by
    cases h with
    | string _ hpos hstart => exact ⟨rfl, hpos, hstart⟩
    | _ hc => exact absurd hc (by decide)
  by_cases hclosed : countWhile (· != '"') rest < rest.length
  · have hstart : stringStart rest = (.token .string, countWhile (· != '"') rest + 1) :=
      if_pos hclosed
    rw [hstart]
    refine takesAt_only hpunctuation hcomparison (t := ⟨some .string, string⟩)
      (by simp [terminals_eq, otherTerminals])
      (matchesAt_string.mpr ⟨rfl, Nat.succ_pos _, hstart⟩) fun u m h => ?_
    obtain ⟨rfl, hpos, hsame⟩ := hopen h
    have hlength := congrArg Prod.snd (hstart.symm.trans hsame)
    dsimp only at hlength
    exact ⟨by omega, fun _ => rfl⟩
  · have hstart : stringStart rest = (.unclosed, countWhile (· != '"') rest) := if_neg hclosed
    rw [hstart]
    intro t ht m hmatches
    have hsame := (hopen (matchesOpen hpunctuation hcomparison ht hmatches)).2.2
    rw [hstart] at hsame
    cases hsame

/-- A number is taken as far as the scanner takes it. -/
theorem takesAt_digit
    (hc : isDigit c = true)
    (hletter : isLetter c = false) :
    TakesAt (c :: rest) (numberExtent rest + 1) (some .number) := by
  refine takesAt_only hpunctuation hcomparison (t := ⟨some .number, number⟩)
    (by simp [terminals_eq, otherTerminals]) (matchesAt_number hc) fun u m h => ?_
  cases h with
  | number _ hle => exact ⟨hle, fun _ => rfl⟩
  | slash h => exact absurd hc (by simp [h, isDigit])
  | string h => exact absurd hc (by simp [h, isDigit])
  | comment h => exact absurd hc (by simp [h, isDigit])
  | space h =>
      have hcases : c = ' ' ∨ c = '\r' ∨ c = '\t' ∨ c = '\n' := by
        simpa [isBlank, or_assoc] using h
      rcases hcases with rfl | rfl | rfl | rfl <;> exact absurd hc (by decide)
  | _ h => simp [hletter] at h

/-- A word is taken as far as the scanner takes it, with the kind that it has there. -/
theorem takesAt_word
    (hc : isLetter c = true)
    (hdigit : isDigit c = false)
    (hblank : isBlank c = false) :
    TakesAt (c :: rest) ((wordStart c rest).2 + 1)
      (some (.ofWord (String.ofList (c :: rest.take (wordStart c rest).2)))) := by
  change TakesAt (c :: rest) (countWhile isWordPart rest + 1)
    (some (.ofWord (String.ofList (c :: rest.take (countWhile isWordPart rest)))))
  generalize hextent : countWhile isWordPart rest = extent
  have hle : extent ≤ rest.length := hextent ▸ countWhile_le isWordPart rest
  have hidentifier : Terminal.MatchesAt ⟨some .identifier, identifier⟩ (c :: rest) (extent + 1) :=
    matchesAt_identifier.mpr ⟨Nat.succ_pos _, hc, by omega⟩
  have hopen {u : Terminal} {m : Nat} (h : MatchesOpen c rest u m) : m ≤ extent + 1
      ∧ (u = ⟨some .identifier, identifier⟩ ∨ ∃ x ∈ reservedWords, u = fixedTerminal x
        ∧ m = x.1.toList.length ∧ x.1.toList <+: c :: rest) := by
    cases h with
    | word _ hx hstarts hle => exact ⟨hextent ▸ hle, .inr ⟨_, hx, rfl, rfl, hstarts⟩⟩
    | identifier _ hle => exact ⟨hextent ▸ hle, .inl rfl⟩
    | number h => simp [hdigit] at h
    | space h => simp [hblank] at h
    | _ h => exact absurd hc (by simp [h, isLetter])
  have hlongest : ∀ t ∈ terminals, ∀ m, t.MatchesAt (c :: rest) m → m ≤ extent + 1 :=
    fun t ht m h => (hopen (matchesOpen hpunctuation hcomparison ht h)).1
  by_cases hword : TokenKind.ofWord (String.ofList (c :: rest.take extent)) = .identifier
  · rw [hword]
    refine ⟨hlongest, fixedTerminals.map fixedTerminal, _, _, rfl, rfl, hidentifier, ?_⟩
    rintro u hu hmatches
    have hmem : u ∈ terminals := List.mem_append_left _ hu
    obtain ⟨y, hy, rfl⟩ := List.mem_map.mp hu
    rcases (hopen (matchesOpen hpunctuation hcomparison hmem hmatches)).2 with
      h | ⟨x, hx, h, hlength, hstarts⟩
    · exact fixed_ne_identifier hy (Option.some.inj (congrArg Terminal.kind h))
    · have htake : x.1.toList = c :: rest.take extent := by
        rw [List.prefix_iff_eq_take.mp hstarts, ← hlength, List.take_succ_cons]
      have hsame : x.1 = String.ofList (c :: rest.take extent) := by
        rw [← htake, String.ofList_toList]
      obtain ⟨hkind, hne⟩ := ofWord_of_mem hx
      exact hne (by rw [← hkind, hsame, hword])
  · have hmem := fixed_of_reserved (mem_of_ofWord hword)
    have htakes := takesAt_fixed (s := c :: rest) hmem
      (by simpa using List.take_prefix extent rest) ?_
    · simpa [List.length_take_of_le hle] using htakes
    · simpa [List.length_take_of_le hle] using hlongest

end Open

end Openings

section Segments

open Segment

variable {c : Char} {rest : List Char}

/-- No digit is a letter. -/
theorem isLetter_of_isDigit (h : isDigit c = true) : isLetter c = false := by
  simp only [isDigit, isLetter, Bool.and_eq_true, Bool.or_eq_false_iff, Bool.and_eq_false_iff,
    decide_eq_true_eq, decide_eq_false_iff_not, Char.le_def, UInt32.le_iff_toNat_le,
    beq_eq_false_iff_ne] at h ⊢
  refine ⟨⟨.inl ?_, .inl ?_⟩, ?_⟩
  · exact fun hle => absurd (hle.trans h.2) (by decide)
  · exact fun hle => absurd (hle.trans h.2) (by decide)
  · rintro rfl
    exact absurd h.2 (by decide)

/-- The segment at the start of a text is the terminal there. -/
theorem takenAs_start (c : Char) (rest : List Char) : TakenAs c rest (start c rest) := by
  unfold start
  split
  · next hkind => exact takesAt_punctuation hkind
  · next hkinds => exact takenAs_comparison hkinds
  · next hpunctuation hcomparison =>
      split
      · next hslash => exact takenAs_slash hpunctuation hcomparison (eq_of_beq hslash)
      · split
        · next hblank => exact ⟨hblank, takesAt_blank hpunctuation hcomparison hblank⟩
        · split
          · next hquote => exact takenAs_quote hpunctuation hcomparison (eq_of_beq hquote)
          · split
            · next hdigit =>
                exact takesAt_digit hpunctuation hcomparison hdigit (isLetter_of_isDigit hdigit)
            · split
              · next hslash hblank hquote hdigit hletter =>
                  exact takesAt_word hpunctuation hcomparison hletter (by simpa using hdigit)
                    (by simpa using hblank)
              · next hslash hblank hquote hdigit hletter =>
                  intro t ht m hmatches
                  cases matchesOpen hpunctuation hcomparison ht hmatches <;> simp_all

/-- There is one way to take a terminal. -/
theorem TakesAt.unique
    {text : List Char}
    {m n : Nat}
    {kind kind' : Option TokenKind}
    (h : TakesAt text m kind)
    (h' : TakesAt text n kind') :
    m = n ∧ kind = kind' := by
  obtain ⟨before, t, after, hsplit, rfl, hmatches, hbefore⟩ := h.first
  obtain ⟨before', t', after', hsplit', rfl, hmatches', hbefore'⟩ := h'.first
  have hmem : t ∈ terminals := hsplit ▸ List.mem_append_right _ List.mem_cons_self
  have hmem' : t' ∈ terminals := hsplit' ▸ List.mem_append_right _ List.mem_cons_self
  obtain rfl : m = n := le_antisymm (h'.longest t hmem m hmatches) (h.longest t' hmem' n hmatches')
  refine ⟨rfl, ?_⟩
  rcases List.append_eq_append_iff.mp (hsplit.symm.trans hsplit') with
    ⟨between, rfl, hcons⟩ | ⟨between, rfl, hcons⟩
  · cases between with
    | nil => rw [(List.cons.inj hcons).1]
    | cons u between =>
        obtain ⟨rfl, -⟩ := List.cons.inj hcons
        exact absurd hmatches (hbefore' _ (by simp))
  · cases between with
    | nil => rw [(List.cons.inj hcons).1]
    | cons u between =>
        obtain ⟨rfl, -⟩ := List.cons.inj hcons
        exact absurd hmatches' (hbefore _ (by simp))

/-- White space before a text has no tokens and no errors. -/
theorem filterMap_splitFrom_blank
    {α : Type}
    {view : Segment → Option α}
    (hview : ∀ text line, view ⟨.blank, text, line⟩ = none)
    {blanks : List Char}
    (hblanks : ∀ c ∈ blanks, isBlank c = true)
    (line : Int)
    (more : List Char) :
    (splitFrom line (blanks ++ more)).filterMap view =
      (splitFrom (line + blanks.count '\n') more).filterMap view := by
  induction blanks generalizing line with
  | nil => simp
  | cons c blanks ih =>
      obtain ⟨hc, hrest⟩ := List.forall_mem_cons.mp hblanks
      have hcases : c = ' ' ∨ c = '\r' ∨ c = '\t' ∨ c = '\n' := by
        simpa [isBlank, or_assoc] using hc
      have hstart : start c (blanks ++ more) = (.blank, 0) := by
        rcases hcases with rfl | rfl | rfl | rfl <;> rfl
      have hfirst : first line c (blanks ++ more) = ⟨.blank, [c], line + [c].count '\n'⟩ := by
        rw [first, hstart, List.take_zero]
      have hcount : (c :: blanks).count '\n' = [c].count '\n' + blanks.count '\n' := by
        rw [← List.count_append]
        rfl
      rw [List.cons_append, splitFrom_cons, hfirst, hstart, List.filterMap_cons_none (hview _ _),
        List.drop_zero, ih hrest, hcount, Nat.cast_add, add_assoc]

section Cuts

variable {text : List Char} {n : Nat} {kind : TokenKind} {line : Int} {tokens : List Token}

/-- Of an empty text nothing is taken. -/
theorem not_takesAt_nil {kind : Option TokenKind} : ¬ TakesAt [] n kind := by
  rintro ⟨-, before, t, after, hsplit, -, ⟨-, hmatches⟩, -⟩
  have hstray : TakenAs '#' [] (.stray, 0) := takenAs_start '#' []
  have hmem : t ∈ terminals := hsplit ▸ List.mem_append_right _ List.mem_cons_self
  exact hstray t hmem 0 ⟨Nat.zero_le _, by simpa using hmatches⟩

/-- Where a token is taken, it is the first of the tokens. -/
theorem tokenized_token_iff (htakes : TakesAt text n (some kind)) :
    Tokenized line text tokens ↔ ∃ rest,
      tokens = ⟨kind, String.ofList (text.take n), line + (text.take n).count '\n'⟩ :: rest
        ∧ Tokenized (line + (text.take n).count '\n') (text.drop n) rest := by
  constructor
  · rintro (_ | ⟨h, hrest⟩ | ⟨h, -⟩)
    · exact absurd htakes not_takesAt_nil
    · obtain ⟨rfl, hkind⟩ := h.unique htakes
      cases hkind
      exact ⟨_, rfl, hrest⟩
    · exact absurd (h.unique htakes).2 (by simp)
  · rintro ⟨rest, rfl, hrest⟩
    exact .token htakes hrest

/-- Where a text is left out, the tokens are those behind it. -/
theorem tokenized_leftOut_iff (htakes : TakesAt text n none) :
    Tokenized line text tokens
      ↔ Tokenized (line + (text.take n).count '\n') (text.drop n) tokens := by
  constructor
  · rintro (_ | ⟨h, -⟩ | ⟨h, hrest⟩)
    · exact absurd htakes not_takesAt_nil
    · exact absurd (h.unique htakes).2 (by simp)
    · obtain ⟨rfl, -⟩ := h.unique htakes
      exact hrest
  · exact .leftOut htakes

/-- Where nothing matches, there are no tokens of the text. -/
theorem not_tokenized (h : ∀ t ∈ terminals, ∀ m, ¬ t.MatchesAt (c :: rest) m) :
    ¬ Tokenized line (c :: rest) tokens := by
  have hno (n : Nat) (kind : Option TokenKind) : ¬ TakesAt (c :: rest) n kind := by
    rintro ⟨-, before, t, after, hsplit, -, hmatches, -⟩
    exact h t (hsplit ▸ List.mem_append_right _ List.mem_cons_self) _ hmatches
  rintro (_ | ⟨htakes, -⟩ | ⟨htakes, -⟩)
  · exact hno _ _ htakes
  · exact hno _ _ htakes

end Cuts

/-- The tokens into which a text is cut are those of its segments, if no segment is an error. -/
theorem tokenized_iff_splitFrom
    (line : Int)
    (text : List Char)
    (tokens : List Token) :
    Tokenized line text tokens
      ↔ (splitFrom line text).filterMap Segment.error? = []
        ∧ tokens = (splitFrom line text).filterMap Segment.token? := by
  induction hn : text.length using Nat.strongRecOn generalizing line text tokens with
  | ind size ih =>
      subst hn
      cases text with
      | nil =>
          constructor
          · rintro (_ | ⟨htakes, -⟩ | ⟨htakes, -⟩)
            · simp
            · exact absurd htakes not_takesAt_nil
            · exact absurd htakes not_takesAt_nil
          · rintro ⟨-, rfl⟩
            simpa using Tokenized.done
      | cons c rest =>
          have htaken := takenAs_start c rest
          have hsplit := splitFrom_cons line c rest
          have hrest (n : Nat) (line' : Int) (tokens' : List Token) :=
            ih (rest.drop n).length (by simp only [List.length_drop, List.length_cons]; omega) line'
              (rest.drop n) tokens' rfl
          cases hstart : start c rest with
          | mk kind n =>
              rw [hstart] at htaken
              have hfirst : first line c rest =
                  ⟨kind, (c :: rest).take (n + 1),
                    line + ((c :: rest).take (n + 1)).count '\n'⟩ := by
                rw [first, hstart, List.take_succ_cons]
              rw [hfirst, hstart] at hsplit
              cases kind with
              | token kind =>
                  rw [tokenized_token_iff htaken, List.drop_succ_cons, hsplit]
                  simp only [hrest, List.filterMap_cons, Segment.error?, Segment.token?]
                  constructor
                  · rintro ⟨_, rfl, hnone, rfl⟩
                    exact ⟨hnone, rfl⟩
                  · rintro ⟨hnone, rfl⟩
                    exact ⟨_, rfl, hnone, rfl⟩
              | comment =>
                  rw [tokenized_leftOut_iff htaken, List.drop_succ_cons, hrest, hsplit]
                  simp only [List.filterMap_cons, Segment.error?, Segment.token?]
              | blank =>
                  obtain ⟨blanks, more, rfl, hlength, hblanks, -⟩ := exists_countWhile isBlank rest
                  obtain ⟨hblank, htakes⟩ := htaken
                  have hrun : ∀ d ∈ c :: blanks, isBlank d = true :=
                    List.forall_mem_cons.mpr ⟨hblank, hblanks⟩
                  rw [← hlength] at htakes
                  have hmore := hrest blanks.length (line + (c :: blanks).count '\n') tokens
                  rw [List.drop_left] at hmore
                  rw [tokenized_leftOut_iff htakes, List.take_succ_cons, List.take_left,
                    List.drop_succ_cons, List.drop_left, hmore, ← List.cons_append,
                    filterMap_splitFrom_blank (fun _ _ => rfl) hrun,
                    filterMap_splitFrom_blank (fun _ _ => rfl) hrun]
              | stray =>
                  rw [hsplit]
                  exact iff_of_false (not_tokenized htaken) (by simp [Segment.error?])
              | unclosed =>
                  rw [hsplit]
                  exact iff_of_false (not_tokenized htaken) (by simp [Segment.error?])

end Segments

/-- The tokens into which a text is cut are those that scanning finds, if it finds no errors. -/
theorem tokenized_iff (source : String) (tokens : List Token) :
    Tokenized 1 source.toList tokens
      ↔ (scan source).errors = [] ∧ tokens = (scan source).tokens :=
  tokenized_iff_splitFrom 1 source.toList tokens

end Grammar
end Lox
