import Lox.Proofs.Token.Account

/-!
# The spelling of tokens

The lexeme of a token is spelled as the kind of the token wants it: it is the fixed text of a
punctuation mark, an operator or a reserved word, or a name and no reserved word, or a string
between two quotes.

**Main definition.**
* `Token.Proper`: the lexeme is spelled as the kind wants it.

**Result.**
* `scan_proper`: the tokens of a text are spelled so.
-/

namespace Lox

open Segment

/-- The lexeme of a token is spelled as its kind wants it. -/
inductive Token.Proper (t : Token) : Prop
  | fixed (hfixed : (t.lexeme, t.kind) ∈ Grammar.fixedTerminals)
  | identifier
      (hkind : t.kind = .identifier)
      (hword : TokenKind.ofWord t.lexeme = .identifier)
      (hletters : ∃ c rest, t.lexeme.toList = c :: rest ∧ isLetter c = true
        ∧ ∀ d ∈ rest, isWordPart d = true)
  | number (hkind : t.kind = .number)
  | string
      (hkind : t.kind = .string)
      (hquoted : ∃ inside, t.lexeme.toList = '"' :: (inside ++ ['"']) ∧ '"' ∉ inside)

namespace Segment

theorem mem_fixedTerminals_of_punctuation
    {c : Char}
    {kind : TokenKind}
    (h : TokenKind.ofPunctuation? c = some kind) :
    (String.ofList [c], kind) ∈ Grammar.fixedTerminals := by
  unfold TokenKind.ofPunctuation? at h
  split at h <;> cases h <;> decide

theorem mem_fixedTerminals_of_comparison
    {c : Char}
    {alone paired : TokenKind}
    (h : TokenKind.ofComparison? c = some (alone, paired)) :
    (String.ofList [c], alone) ∈ Grammar.fixedTerminals
      ∧ (String.ofList [c, '='], paired) ∈ Grammar.fixedTerminals := by
  unfold TokenKind.ofComparison? at h
  split at h <;> cases h <;> exact ⟨by decide, by decide⟩

/-- A closed string ends with its second quote. -/
theorem exists_inside
    {l behind : List Char}
    (hclosed : countWhile (· != '"') (l ++ behind) < (l ++ behind).length)
    (hextent : l.length = countWhile (· != '"') (l ++ behind) + 1) :
    ∃ inside, l = inside ++ ['"'] ∧ '"' ∉ inside := by
  obtain ⟨inside, after, hsplit, hinside, hnone, hend⟩ :=
    Grammar.exists_countWhile (· != '"') (l ++ behind)
  have hlength := congrArg List.length hsplit
  cases after with
  | nil =>
      rw [List.append_nil] at hlength
      omega
  | cons d after =>
      obtain rfl : d = '"' := by simpa using hend d rfl
      refine ⟨inside, ?_, fun hmem => by simpa using hnone _ hmem⟩
      calc l = (l ++ behind).take l.length := List.take_left.symm
        _ = (inside ++ ['"'] ++ after).take (inside ++ ['"']).length := by
            rw [hsplit, hextent, ← hinside]
            simp
        _ = inside ++ ['"'] := List.take_left

/-- What starts a text as a token is spelled as its kind wants it. -/
theorem proper_of_start
    {t : Token}
    {c : Char}
    {l behind : List Char}
    (hlexeme : t.lexeme = String.ofList (c :: l))
    (hstart : start c (l ++ behind) = (.token t.kind, l.length)) :
    t.Proper := by
  have hstarts := starts c (l ++ behind)
  rw [hstart] at hstarts
  obtain ⟨kind, lexeme, line⟩ := t
  dsimp only at hlexeme hstarts
  subst hlexeme
  generalize hextent : l.length = extent at hstarts
  cases hstarts with
  | punctuation hkind =>
      obtain rfl := List.length_eq_zero_iff.mp hextent
      exact .fixed (mem_fixedTerminals_of_punctuation hkind)
  | paired hkinds hnext =>
      obtain ⟨d, rfl⟩ := List.length_eq_one_iff.mp hextent
      obtain rfl : d = '=' := by simpa using hnext
      exact .fixed (mem_fixedTerminals_of_comparison hkinds).2
  | alone hkinds hnext =>
      obtain rfl := List.length_eq_zero_iff.mp hextent
      exact .fixed (mem_fixedTerminals_of_comparison hkinds).1
  | slash hslash hnext =>
      obtain rfl := List.length_eq_zero_iff.mp hextent
      exact .fixed (by rw [hslash]; dsimp only; decide)
  | string hquote hclosed =>
      obtain ⟨inside, hl, hinside⟩ := exists_inside hclosed hextent
      exact .string rfl ⟨inside, by simp [hquote, hl], hinside⟩
  | number hdigit => exact .number rfl
  | word hletter hcount =>
      have hall := (countWhile_append_eq_length_iff.mp (hcount.symm.trans hextent.symm)).1
      rw [← hextent, List.take_left]
      by_cases hword : TokenKind.ofWord (String.ofList (c :: l)) = .identifier
      · exact .identifier hword hword ⟨c, l, by simp, hletter, hall⟩
      · exact .fixed (Grammar.fixed_of_reserved (Grammar.mem_of_ofWord hword))

end Segment

/-- The tokens of a text are spelled as their kinds want it. -/
theorem scan_proper
    {source : String}
    {t : Token}
    (h : t ∈ (scan source).tokens) :
    t.Proper := by
  obtain ⟨c, l, behind, hlexeme, hstart⟩ := start_of_mem_splitFrom h
  exact proper_of_start hlexeme hstart

end Lox
