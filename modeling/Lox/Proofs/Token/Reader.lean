import Lox.Proofs.Token.Account
import Lox.Token.Reader

/-!
# Scanning by position

The scanner that goes by position ends, and it finds what the split of the text into segments says:
each round of its loop reads exactly one segment.  From this it follows that it accounts for every
character and every line.

**Main definitions.**
* `Reader.Facing`: a state in front of a piece of the text, with no lexeme begun.
* `ReaderState.past`: the state when some characters have been read.
* `ReaderState.behind`: the state when a segment has been read.
* `AccountsFor`: segments that account for a text and for all that the scanner finds in it.

**Results.**
* `Reader.tokenize_eq`: the scanner that goes by position computes `scan`.
* `Reader.tokenize_accounts`: it ends, and its tokens, errors and lines are accounted for.
-/

namespace Lox

/-- A token with the value that its text denotes. -/
def ReadToken.of (t : Token) : ReadToken :=
  ⟨t, t.literal⟩

namespace ReaderState

/-- The state when characters have been read; a line break among them moves the line. -/
def past (s : ReaderState) (text : List Char) : ReaderState :=
  { s with position := s.position + text.length, line := s.line + text.count '\n' }

/-- The state when a segment has been read. -/
def behind (s : ReaderState) (segment : Segment) : ReaderState :=
  { s with
    position := s.position + segment.text.length
    line := segment.line
    tokens := (segment.token?.map ReadToken.of).toList ++ s.tokens
    errors := segment.error?.toList ++ s.errors }

variable (s : ReaderState)

@[simp] theorem past_nil : s.past [] = s := by
  simp [past]

/-- Characters are read one piece after another. -/
theorem past_append (text more : List Char) : (s.past text).past more = s.past (text ++ more) := by
  simp only [past, List.length_append, List.count_append, Nat.cast_add, Nat.add_assoc,
    Int.add_assoc]

/-- A character other than a line break moves only the position. -/
theorem past_singleton {c : Char} (hc : c ≠ '\n') :
    s.past [c] = { s with position := s.position + 1 } := by
  simp [past, hc]

end ReaderState

namespace Segment

/-- What is read from a line on, when its kind is known. -/
def ofText (line : Int) (kind : SegmentKind) (text : List Char) : Segment :=
  ⟨kind, text, line + text.count '\n'⟩

end Segment

namespace Reader

open Segment

variable {α β : Type} {source text rest : List Char} {s s' : ReaderState} {c : Char}

/-- The text goes on with `rest` at the position. -/
structure Ahead (source : List Char) (s : ReaderState) (rest : List Char) : Prop where
  inside : s.position ≤ source.length
  ahead : source.drop s.position = rest

/-- The text goes on with `rest` at the position, and a lexeme starts there. -/
structure Facing (source : List Char) (s : ReaderState) (rest : List Char) : Prop
    extends Ahead source s rest where
  starts : s.start = s.position

/-- What has been read and what is ahead are the whole text. -/
theorem Ahead.length_eq (h : Ahead source s rest) : s.position + rest.length = source.length := by
  have hinside := h.inside
  rw [← h.ahead, List.length_drop]
  omega

/-- What is ahead when some of it has been read. -/
theorem Ahead.past (h : Ahead source s (text ++ rest)) : Ahead source (s.past text) rest := by
  have hlength := h.length_eq
  rw [List.length_append] at hlength
  constructor
  · simp only [ReaderState.past]
    omega
  · simp only [ReaderState.past]
    rw [← List.drop_drop, h.ahead, List.drop_left]

/-- What is ahead when one character has been read. -/
theorem Ahead.past_one {c : Char} (h : Ahead source s (c :: rest)) :
    Ahead source (s.past [c]) rest :=
  have hsplit : Ahead source s ([c] ++ rest) := h
  hsplit.past

/-- The characters ahead are found by their distance from the position. -/
theorem Ahead.getElem? (h : Ahead source s rest) (offset : Nat) :
    source[s.position + offset]? = rest[offset]? := by
  rw [← h.ahead, List.getElem?_drop]

section Operations

theorem bind_eq_of_ok
    {x : Reader α}
    {f : α → Reader β}
    {a : α}
    (h : x source s = .ok a s') :
    (x >>= f) source s = f a source s' := by
  simp only [bind, ReaderT.bind, EStateM.bind, h]

/-- Looking ahead shows the text that is ahead, and the character with code zero behind its end. -/
theorem peek_run (h : Ahead source s rest) (offset : Nat) :
    peek offset source s = .ok (rest[offset]?.getD '\x00') s := by
  rw [peek, h.getElem?]

/-- The end is reached if nothing is ahead. -/
theorem atEnd_run (h : Ahead source s rest) : atEnd source s = .ok rest.isEmpty s := by
  have hend : source.length ≤ s.position ↔ rest = [] := by
    rw [← h.ahead, List.drop_eq_nil_iff]
  rw [atEnd]
  cases rest with
  | nil => simpa using hend
  | cons c rest => simpa using hend

/-- The character at the position can be looked at if it is ahead. -/
theorem look_run (h : Ahead source s (c :: rest)) :
    (do look (← position)) source s = .ok c s := by
  have hposition : position source s = .ok s.position s := rfl
  have hget : source[s.position]? = some c := h.getElem? 0
  rw [bind_eq_of_ok hposition, look, hget]

/-- A character that is ahead can be taken. -/
theorem advance_run (h : Ahead source s (c :: rest)) :
    advance source s = .ok c { s with position := s.position + 1 } :=
  bind_eq_of_ok (look_run h)

/-- A character other than a line break is passed without a change of the line. -/
theorem pass_run (h : Ahead source s (c :: rest)) (hc : c ≠ '\n') :
    pass source s = .ok () (s.past [c]) := by
  rw [pass, bind_eq_of_ok (advance_run h), s.past_singleton hc]
  rfl

/-- The expected character is taken. -/
theorem accept_run (h : Ahead source s (c :: rest)) (hc : c ≠ '\n') :
    accept c source s = .ok true (s.past [c]) := by
  have hsame : ¬ (c != c) = true := by simp
  rw [accept, bind_eq_of_ok (atEnd_run h), s.past_singleton hc]
  refine (bind_eq_of_ok (look_run h)).trans ?_
  rw [if_neg hsame]
  rfl

/-- No other character is taken, and none at the end. -/
theorem accept_run_of_ne (h : Ahead source s rest) (hc : rest.head? ≠ some c) :
    accept c source s = .ok false s := by
  rw [accept, bind_eq_of_ok (atEnd_run h)]
  cases rest with
  | nil => rfl
  | cons d rest =>
      have hne : (d != c) = true := by simpa using hc
      refine (bind_eq_of_ok (look_run h)).trans ?_
      rw [if_pos hne]
      rfl

/-- From the start on, the characters read are the lexeme. -/
theorem slice_run (h : Facing source s (text ++ rest)) :
    slice 0 0 source (s.past text) = .ok text (s.past text) := by
  have hextract : source.extract s.start (s.position + text.length) = text := by
    rw [List.extract_eq_take_drop, h.starts, h.ahead, Nat.add_sub_cancel_left, List.take_left]
  exact congrArg (EStateM.Result.ok · _) hextract

/-- Without the two characters at its ends, a lexeme is what it has between them. -/
theorem slice_run_inner
    {first last : Char}
    (h : Facing source s ((first :: (text ++ [last])) ++ rest)) :
    slice 1 1 source (s.past (first :: (text ++ [last]))) =
      .ok text (s.past (first :: (text ++ [last]))) := by
  have hahead : source.drop (s.position + 1) = text ++ last :: rest := by
    rw [← List.drop_drop, h.ahead]
    simp
  have hextract : source.extract (s.start + 1)
      (s.position + (first :: (text ++ [last])).length - 1) = text := by
    have hlength : s.position + (first :: (text ++ [last])).length - 1 - (s.position + 1) =
        text.length := by
      simp only [List.length_cons, List.length_append, List.length_nil]
      omega
    rw [List.extract_eq_take_drop, h.starts, hahead, hlength, List.take_left]
  exact congrArg (EStateM.Result.ok · _) hextract

/-- A token for what has been read makes the state that is behind the token. -/
theorem emit_run
    {kind : TokenKind}
    {literal : Literal}
    (h : Facing source s (text ++ rest))
    (hliteral : ∀ line, Token.literal ⟨kind, String.ofList text, line⟩ = literal) :
    emit kind literal source (s.past text) =
      .ok () (s.behind (ofText s.line (.token kind) text)) := by
  rw [emit, bind_eq_of_ok (slice_run h), ← hliteral (s.line + text.count '\n')]
  rfl

/-- An error at what has been read makes the state that is behind it. -/
theorem report_run
    {kind : SegmentKind}
    {fault : ScanFault}
    (htoken : ∀ line, (ofText line kind text).token? = none)
    (herror : ∀ line, (ofText line kind text).error? = some ⟨fault, line + text.count '\n'⟩) :
    report fault source (s.past text) = .ok () (s.behind (ofText s.line kind text)) := by
  simp only [report, ReaderState.past, ReaderState.behind, htoken, herror]
  rfl

end Operations

section Loops

/-- A loop that reads characters as long as they satisfy `p`. -/
structure Reads
    (source : List Char)
    (test : Reader Bool)
    (step : Reader Unit)
    (p : Char → Bool) : Prop where
  test : ∀ {s rest}, Ahead source s rest → test source s = .ok (rest.head?.any p) s
  step : ∀ {s c rest}, Ahead source s (c :: rest) → p c = true →
    step source s = .ok () (s.past [c])

variable {test : Reader Bool} {step : Reader Unit} {p : Char → Bool}

/-- A loop reads the characters that satisfy its test, if it has more fuel than there are. -/
theorem loop_run
    (hreads : Reads source test step p)
    (h : Ahead source s (text ++ rest))
    (htext : ∀ c ∈ text, p c = true)
    (hrest : ∀ c ∈ rest.head?, p c = false)
    {fuel : Nat}
    (hfuel : text.length < fuel) :
    loop test step fuel source s = .ok () (s.past text) := by
  induction text generalizing s fuel with
  | nil =>
      obtain ⟨fuel, rfl⟩ := Nat.exists_eq_succ_of_ne_zero (Nat.ne_zero_of_lt hfuel)
      have hends : rest.head?.any p = false := by
        cases hhead : rest.head? with
        | none => rfl
        | some c => exact hrest c hhead
      rw [loop, bind_eq_of_ok (hreads.test h), List.nil_append, hends, s.past_nil]
      rfl
  | cons c text ih =>
      obtain ⟨fuel, rfl⟩ := Nat.exists_eq_succ_of_ne_zero (Nat.ne_zero_of_lt hfuel)
      obtain ⟨hc, htext⟩ := List.forall_mem_cons.mp htext
      have hgoes : ((c :: text) ++ rest).head?.any p = true := hc
      have hnext : Ahead source (s.past [c]) (text ++ rest) := h.past_one
      rw [loop, bind_eq_of_ok (hreads.test h), hgoes, if_pos rfl,
        bind_eq_of_ok (hreads.step h hc), ih hnext htext (Nat.lt_of_succ_lt_succ hfuel),
        s.past_append, List.singleton_append]

/-- The fuel of a loop is enough for all the text that is ahead. -/
theorem repeatWhile_run
    (hreads : Reads source test step p)
    (h : Ahead source s (text ++ rest))
    (htext : ∀ c ∈ text, p c = true)
    (hrest : ∀ c ∈ rest.head?, p c = false) :
    repeatWhile test step source s = .ok () (s.past text) := by
  refine loop_run hreads h htext hrest ?_
  have hlength := h.length_eq
  rw [List.length_append] at hlength
  omega

/-- A test of the next character alone, which the character with code zero does not satisfy. -/
theorem reads_while (hzero : p '\x00' = false) (hbreak : p '\n' = false) :
    Reads source (do return p (← peek 0)) pass p where
  test := by
    intro s rest h
    rw [bind_eq_of_ok (peek_run h 0)]
    cases rest with
    | nil => exact congrArg (EStateM.Result.ok · s) hzero
    | cons c rest => rfl
  step := by
    intro s c rest h hc
    refine pass_run h ?_
    rintro rfl
    exact Bool.false_ne_true (hbreak.symm.trans hc)

/-- A loop goes on up to a character, or to the end. -/
theorem before_run (stop : Char) (h : Ahead source s rest) :
    before stop source s = .ok (rest.head?.any (· != stop)) s := by
  rw [before, bind_eq_of_ok (peek_run h 0), bind_eq_of_ok (atEnd_run h)]
  cases rest with
  | nil => exact congrArg (EStateM.Result.ok · s) (Bool.and_false _)
  | cons c rest => exact congrArg (EStateM.Result.ok · s) (Bool.and_true _)

/-- Such a loop reads what has the character nowhere, if the character or the end is behind it. -/
theorem repeatWhile_before_run
    {stop : Char}
    (hstep : ∀ {s c rest}, Ahead source s (c :: rest) → c ≠ stop →
      step source s = .ok () (s.past [c]))
    (h : Ahead source s (text ++ rest))
    (htext : stop ∉ text)
    (hrest : ∀ c ∈ rest.head?, c = stop) :
    repeatWhile (before stop) step source s = .ok () (s.past text) := by
  have hreads : Reads source (before stop) step (· != stop) := by
    constructor
    · exact fun h => before_run stop h
    · exact fun h hc => hstep h (by simpa using hc)
  refine repeatWhile_run hreads h ?_ ?_
  · intro c hc
    have hne : c ≠ stop := fun heq => htext (heq ▸ hc)
    simpa using hne
  · simpa using hrest

end Loops

section Scanners

/-- A comment is passed up to the end of its line. -/
theorem skipComment_run
    (h : Ahead source s (text ++ rest))
    (htext : '\n' ∉ text)
    (hrest : ∀ c ∈ rest.head?, c = '\n') :
    skipComment source s = .ok () (s.past text) :=
  repeatWhile_before_run (fun h hc => pass_run h hc) h htext hrest

/-- Inside of a string, a line break moves the line before it is passed. -/
theorem passInside_run (h : Ahead source s (c :: rest)) :
    passInside source s = .ok () (s.past [c]) := by
  rw [passInside, bind_eq_of_ok (peek_run h 0)]
  by_cases hc : c = '\n'
  · subst hc
    have hbroken : Ahead source { s with line := s.line + 1 } ('\n' :: rest) :=
      ⟨h.inside, h.ahead⟩
    exact bind_eq_of_ok (advance_run hbroken)
  · have hother : ¬ (c == '\n') = true := by simpa using hc
    refine Eq.trans ?_ (pass_run h hc)
    simp [hother]

/-- A string that is closed becomes a token, which denotes what is between its quotes. -/
theorem scanString_run_closed
    (h : Facing source s ('"' :: (text ++ '"' :: rest)))
    (htext : '"' ∉ text) :
    scanString source (s.past ['"']) =
      .ok () (s.behind (ofText s.line (.token .string) ('"' :: (text ++ ['"'])))) := by
  have hopened : Ahead source (s.past ['"']) (text ++ '"' :: rest) := Ahead.past h.toAhead
  have hinside : Ahead source ((s.past ['"']).past text) ('"' :: rest) := hopened.past
  have hwhole : Facing source s (('"' :: (text ++ ['"'])) ++ rest) := by simpa using h
  have hread : ((s.past ['"']).past text).past ['"'] = s.past ('"' :: (text ++ ['"'])) := by
    rw [s.past_append, s.past_append]
    rfl
  rw [scanString,
    bind_eq_of_ok (repeatWhile_before_run (fun h _ => passInside_run h) hopened htext (by simp)),
    bind_eq_of_ok (atEnd_run hinside), List.isEmpty_cons, if_neg Bool.false_ne_true,
    bind_eq_of_ok (pass_run hinside (by decide)), hread, bind_eq_of_ok (slice_run_inner hwhole)]
  exact emit_run hwhole fun line => by simp [Token.literal, unquoted]

/-- A string that is never closed is an error on the line of the end. -/
theorem scanString_run_unclosed
    (h : Facing source s ('"' :: text))
    (htext : '"' ∉ text) :
    scanString source (s.past ['"']) =
      .ok () (s.behind (ofText s.line .unclosed ('"' :: text))) := by
  have hopened : Ahead source (s.past ['"']) (text ++ []) := by
    rw [List.append_nil]
    exact h.toAhead.past_one
  have hended : Ahead source ((s.past ['"']).past text) [] := hopened.past
  rw [scanString,
    bind_eq_of_ok (repeatWhile_before_run (fun h _ => passInside_run h) hopened htext (by simp)),
    bind_eq_of_ok (atEnd_run hended), List.isEmpty_nil, if_pos rfl, s.past_append]
  exact report_run (fun _ => rfl) (fun _ => rfl)

/-- Digits are passed up to the first other character. -/
theorem skipDigits_run
    (h : Ahead source s (text ++ rest))
    (htext : ∀ c ∈ text, isDigit c = true)
    (hrest : ∀ c ∈ rest.head?, isDigit c = false) :
    skipDigits source s = .ok () (s.past text) :=
  repeatWhile_run (reads_while (by decide) (by decide)) h htext hrest

/-- A point and a digit behind it are seen two characters ahead. -/
theorem atFraction_run (h : Ahead source s rest) :
    atFraction source s = .ok (decide (Grammar.fractionExtent rest ≠ 0)) s := by
  rw [atFraction, bind_eq_of_ok (peek_run h 0), bind_eq_of_ok (peek_run h 1)]
  refine congrArg (EStateM.Result.ok · s) ?_
  cases rest with
  | nil => rfl
  | cons c rest =>
      by_cases hc : c = '.'
      · subst hc
        cases rest with
        | nil => rfl
        | cons d rest =>
            cases hd : isDigit d <;> simp [Grammar.fractionExtent, countWhile, hd]
      · simp [Grammar.fractionExtent, hc]

/-- A fraction is passed if there is one. -/
theorem skipFraction_run (h : Ahead source s rest) :
    skipFraction source s = .ok () (s.past (rest.take (Grammar.fractionExtent rest))) := by
  rw [skipFraction, bind_eq_of_ok (atFraction_run h)]
  by_cases hnone : Grammar.fractionExtent rest = 0
  · rw [hnone, List.take_zero, s.past_nil]
    rfl
  · rw [decide_eq_true hnone, if_pos rfl]
    unfold Grammar.fractionExtent at hnone ⊢
    split at hnone
    · next fraction =>
        have hcount : countWhile isDigit fraction ≠ 0 := fun hzero => hnone (if_pos hzero)
        obtain ⟨digits, behind, rfl, hlength, hdigits, hbehind⟩ :=
          Grammar.exists_countWhile isDigit fraction
        have hpoint : Ahead source (s.past ['.']) (digits ++ behind) :=
          h.past_one
        rw [bind_eq_of_ok (pass_run h (by decide)), skipDigits_run hpoint hdigits hbehind,
          s.past_append, if_neg hcount, ← hlength, Nat.add_comm, List.take_succ_cons,
          List.take_left]
        rfl
    · exact absurd rfl hnone

/-- A number is read as far as it goes, and denotes its text. -/
theorem scanNumber_run (h : Facing source s (c :: rest)) :
    scanNumber source (s.past [c]) =
      .ok () (s.behind (ofText s.line (.token .number) (c :: rest.take (numberExtent rest)))) := by
  obtain ⟨whole, more, rfl, -, hwhole, hmore⟩ := Grammar.exists_countWhile isDigit rest
  have hopened : Ahead source (s.past [c]) (whole ++ more) := h.toAhead.past_one
  have hread : ((s.past [c]).past whole).past (more.take (Grammar.fractionExtent more)) =
      s.past (c :: (whole ++ more).take (numberExtent (whole ++ more))) := by
    rw [s.past_append, s.past_append, Grammar.numberExtent_append hwhole hmore,
      List.take_length_add_append]
    rfl
  have hwhole' : Facing source s
      ((c :: (whole ++ more).take (numberExtent (whole ++ more)))
        ++ (whole ++ more).drop (numberExtent (whole ++ more))) := by
    rwa [List.cons_append, List.take_append_drop]
  rw [scanNumber, bind_eq_of_ok (skipDigits_run hopened hwhole hmore),
    bind_eq_of_ok (skipFraction_run hopened.past), hread, bind_eq_of_ok (slice_run hwhole')]
  exact emit_run hwhole' fun line => by simp [Token.literal]

/-- Words denote nothing. -/
theorem literal_ofWord (word lexeme : String) (line : Int) :
    Token.literal ⟨.ofWord word, lexeme, line⟩ = .nil := by
  have hreserved : ∀ x ∈ reservedWords, Token.literal ⟨x.2, lexeme, line⟩ = .nil := by
    simp [reservedWords, Token.literal]
  unfold TokenKind.ofWord
  cases hfound : reservedWords.lookup word with
  | none => rfl
  | some kind =>
      obtain ⟨before, after, hsplit, -⟩ := List.lookup_eq_some_iff.mp hfound
      exact hreserved (word, kind) (hsplit ▸ List.mem_append_right _ List.mem_cons_self)

/-- Punctuation denotes nothing. -/
theorem literal_ofPunctuation
    {kind : TokenKind}
    (h : TokenKind.ofPunctuation? c = some kind)
    (lexeme : String)
    (line : Int) :
    Token.literal ⟨kind, lexeme, line⟩ = .nil := by
  unfold TokenKind.ofPunctuation? at h
  split at h <;> cases h <;> rfl

/-- Comparisons denote nothing, with or without the second character. -/
theorem literal_ofComparison
    {alone paired : TokenKind}
    (h : TokenKind.ofComparison? c = some (alone, paired))
    (lexeme : String)
    (line : Int) :
    Token.literal ⟨alone, lexeme, line⟩ = .nil ∧ Token.literal ⟨paired, lexeme, line⟩ = .nil := by
  unfold TokenKind.ofComparison? at h
  split at h <;> cases h <;> exact ⟨rfl, rfl⟩

/-- A word is read as far as it goes. -/
theorem scanWord_run (h : Facing source s (c :: rest)) :
    scanWord source (s.past [c]) =
      .ok () (s.behind (ofText s.line
        (.token (.ofWord (String.ofList (c :: rest.take (countWhile isWordPart rest)))))
        (c :: rest.take (countWhile isWordPart rest)))) := by
  obtain ⟨word, more, rfl, hlength, hword, hmore⟩ := Grammar.exists_countWhile isWordPart rest
  have hopened : Ahead source (s.past [c]) (word ++ more) := h.toAhead.past_one
  have hwhole : Facing source s ((c :: word) ++ more) := h
  rw [← hlength, List.take_left, scanWord,
    bind_eq_of_ok (repeatWhile_run (reads_while (by decide) (by decide)) hopened hword hmore),
    s.past_append, List.singleton_append, bind_eq_of_ok (slice_run hwhole)]
  exact emit_run hwhole fun line => literal_ofWord _ _ line

/-- A comment or a single slash is read. -/
theorem scanOther_run_slash (h : Facing source s ('/' :: rest)) :
    scanOther '/' source (s.past ['/']) =
      .ok () (s.behind (ofText s.line (slashStart rest).1
        ('/' :: rest.take (slashStart rest).2))) := by
  have hopened : Ahead source (s.past ['/']) rest := h.toAhead.past_one
  change (accept '/' >>= fun found => if found then skipComment else emit .slash .nil) source
    (s.past ['/']) = _
  unfold slashStart
  by_cases hnext : rest.head? = some '/'
  · obtain ⟨more, rfl⟩ := List.head?_eq_some_iff.mp hnext
    obtain ⟨inside, behind, rfl, hlength, hinside, hbehind⟩ :=
      Grammar.exists_countWhile (· != '\n') more
    have hcount : countWhile (· != '\n') ('/' :: (inside ++ behind)) = inside.length + 1 := by
      simp [countWhile, hlength]
    have hnone : '\n' ∉ inside := fun hmem => by simpa using hinside _ hmem
    have hends : ∀ c ∈ behind.head?, c = '\n' := fun c hc => by simpa using hbehind c hc
    rw [bind_eq_of_ok (accept_run hopened (by decide)), if_pos rfl, if_pos (by simp),
      skipComment_run hopened.past_one hnone hends, s.past_append,
      s.past_append, hcount, List.take_succ_cons, List.take_left]
    rfl
  · rw [bind_eq_of_ok (accept_run_of_ne hopened hnext), if_neg Bool.false_ne_true,
      if_neg (by simpa using hnext)]
    have hslash : Facing source s (['/'] ++ rest) := h
    exact emit_run hslash fun _ => rfl

/-- A string is read up to its closing quote, or to the end. -/
theorem scanString_run (h : Facing source s ('"' :: rest)) :
    scanString source (s.past ['"']) =
      .ok () (s.behind (ofText s.line (stringStart rest).1
        ('"' :: rest.take (stringStart rest).2))) := by
  obtain ⟨inside, behind, rfl, hlength, hinside, hbehind⟩ :=
    Grammar.exists_countWhile (· != '"') rest
  have hnone : '"' ∉ inside := fun hmem => by simpa using hinside _ hmem
  unfold stringStart
  rw [← hlength]
  cases behind with
  | nil =>
      rw [List.append_nil] at h ⊢
      have hopen : ¬ inside.length < inside.length := Nat.lt_irrefl _
      simp only [if_neg hopen, List.take_length]
      exact scanString_run_unclosed h hnone
  | cons d behind =>
      obtain rfl : d = '"' := by simpa using hbehind d rfl
      have hclosed : inside.length < (inside ++ '"' :: behind).length := by simp
      simp only [if_pos hclosed, List.take_length_add_append, List.take_succ_cons, List.take_zero]
      exact scanString_run_closed h hnone

/-- What is neither punctuation nor a comparison is read as a segment. -/
theorem scanOther_run
    (h : Facing source s (c :: rest))
    (hbreak : c ≠ '\n')
    (hpunctuation : TokenKind.ofPunctuation? c = none)
    (hcomparison : TokenKind.ofComparison? c = none) :
    scanOther c source (s.past [c]) = EStateM.Result.ok () (s.behind (first s.line c rest)) := by
  change _ = EStateM.Result.ok ()
    (s.behind (ofText s.line (start c rest).1 (c :: rest.take (start c rest).2)))
  simp only [start, hpunctuation, hcomparison]
  by_cases hslash : c = '/'
  · subst hslash
    exact scanOther_run_slash h
  have hslash' : ¬ (c == '/') = true := by simpa using hslash
  rw [scanOther, if_neg hslash', if_neg hslash']
  have hblank : isBlank c = (c == ' ' || c == '\r' || c == '\t') := by simp [isBlank, hbreak]
  rw [← hblank]
  by_cases hspace : isBlank c = true
  · rw [if_pos hspace, if_pos hspace]
    rfl
  have hbreak' : ¬ (c == '\n') = true := by simpa using hbreak
  rw [if_neg hspace, if_neg hspace, if_neg hbreak']
  by_cases hquote : c = '"'
  · subst hquote
    exact scanString_run h
  have hquote' : ¬ (c == '"') = true := by simpa using hquote
  rw [if_neg hquote', if_neg hquote']
  by_cases hdigit : isDigit c = true
  · rw [if_pos hdigit, if_pos hdigit]
    exact scanNumber_run h
  rw [if_neg hdigit, if_neg hdigit]
  by_cases hletter : isLetter c = true
  · rw [if_pos hletter, if_pos hletter]
    exact scanWord_run h
  rw [if_neg hletter, if_neg hletter]
  exact report_run (fun _ => rfl) (fun _ => rfl)

/-- One round of the scanner reads the first segment of the text that is ahead. -/
theorem scanToken_run (h : Facing source s (c :: rest)) :
    scanToken source s = .ok () (s.behind (first s.line c rest)) := by
  by_cases hbreak : c = '\n'
  · subst hbreak
    rw [scanToken, bind_eq_of_ok (advance_run h.toAhead)]
    rfl
  have hadvance : advance source s = .ok c (s.past [c]) := by
    rw [s.past_singleton hbreak]
    exact advance_run h.toAhead
  have halone : Facing source s ([c] ++ rest) := h
  have hopened : Ahead source (s.past [c]) rest := h.toAhead.past_one
  rw [scanToken, bind_eq_of_ok hadvance]
  cases hpunctuation : TokenKind.ofPunctuation? c with
  | some kind =>
      have hfirst : first s.line c rest = ofText s.line (.token kind) [c] := by
        simp [first, ofText, start, hpunctuation]
      rw [hfirst]
      exact emit_run halone (literal_ofPunctuation hpunctuation _)
  | none =>
      cases hcomparison : TokenKind.ofComparison? c with
      | none => exact scanOther_run h hbreak hpunctuation hcomparison
      | some kinds =>
          obtain ⟨alone, paired⟩ := kinds
          by_cases hnext : rest.head? = some '='
          · obtain ⟨more, rfl⟩ := List.head?_eq_some_iff.mp hnext
            have hfirst : first s.line c ('=' :: more) =
                ofText s.line (.token paired) [c, '='] := by
              simp [first, ofText, start, hpunctuation, hcomparison]
            refine (bind_eq_of_ok (accept_run hopened (by decide))).trans ?_
            rw [if_pos rfl, s.past_append, hfirst]
            have hboth : Facing source s ([c, '='] ++ more) := h
            exact emit_run hboth fun line => (literal_ofComparison hcomparison _ line).2
          · have hfirst : first s.line c rest = ofText s.line (.token alone) [c] := by
              simp [first, ofText, start, hpunctuation, hcomparison, hnext]
            refine (bind_eq_of_ok (accept_run_of_ne hopened hnext)).trans ?_
            rw [if_neg Bool.false_ne_true, hfirst]
            exact emit_run halone fun line => (literal_ofComparison hcomparison _ line).1

end Scanners

section Runs

/-- From one state to another, the scanner has read segments. -/
structure Gained (segments : List Segment) (s s' : ReaderState) : Prop where
  tokens : s'.tokens.reverse =
    s.tokens.reverse ++ (segments.filterMap Segment.token?).map ReadToken.of
  errors : s'.errors.reverse = s.errors.reverse ++ segments.filterMap Segment.error?
  line : s'.line = s.line + (textOf segments).count '\n'

/-- Behind a segment, the text goes on with what was behind it. -/
theorem Ahead.behind
    {segment : Segment}
    (h : Ahead source s (segment.text ++ rest)) :
    Ahead source (s.behind segment) rest :=
  ⟨h.past.inside, h.past.ahead⟩

/-- A segment that has been read comes before those that are read from then on. -/
theorem Gained.cons
    {segment : Segment}
    {segments : List Segment}
    (hline : segment.line = s.line + segment.text.count '\n')
    (h : Gained segments (s.behind segment) s') :
    Gained (segment :: segments) s s' := by
  constructor
  · rw [h.tokens, ReaderState.behind, List.filterMap_cons]
    cases segment.token? <;> simp
  · rw [h.errors, ReaderState.behind, List.filterMap_cons]
    cases segment.error? <;> simp
  · rw [h.line, textOf_cons, List.count_append, Nat.cast_add, ← Int.add_assoc, ← hline]
    rfl

/-- One round begins a lexeme and reads the first segment. -/
theorem readNext_run (h : Ahead source s (c :: rest)) :
    readNext source s =
      .ok () ({ s with start := s.position }.behind (first s.line c rest)) := by
  have hbegin : begin source s = .ok () { s with start := s.position } := rfl
  rw [readNext, bind_eq_of_ok hbegin]
  exact scanToken_run ⟨⟨h.inside, h.ahead⟩, rfl⟩

/-- The scanner goes round as often as there are segments ahead, and reads all of them. -/
theorem loop_readNext_run
    (h : Ahead source s rest)
    {fuel : Nat}
    (hfuel : rest.length < fuel) :
    ∃ s', loop (do return !(← atEnd)) readNext fuel source s = .ok () s'
      ∧ Gained (splitFrom s.line rest) s s' := by
  induction fuel generalizing s rest with
  | zero => omega
  | succ fuel ih =>
      have htest : (do return !(← atEnd)) source s = EStateM.Result.ok (!rest.isEmpty) s :=
        bind_eq_of_ok (atEnd_run h)
      rw [loop, bind_eq_of_ok htest]
      cases rest with
      | nil => exact ⟨s, rfl, by simp, by simp, by simp [textOf]⟩
      | cons c rest =>
          have hsplit : (first s.line c rest).text ++ rest.drop (start c rest).2 = c :: rest := by
            rw [first, List.cons_append, List.take_append_drop]
          have hbegun : Ahead source { s with start := s.position }
              ((first s.line c rest).text ++ rest.drop (start c rest).2) := by
            rw [hsplit]
            exact ⟨h.inside, h.ahead⟩
          have hless : (rest.drop (start c rest).2).length < fuel := by
            rw [List.length_cons] at hfuel
            rw [List.length_drop]
            omega
          obtain ⟨s', hrun, hgained⟩ := ih hbegun.behind hless
          have hcons : Gained (first s.line c rest :: splitFrom (first s.line c rest).line
              (rest.drop (start c rest).2)) { s with start := s.position } s' := hgained.cons rfl
          refine ⟨s', ?_, ?_⟩
          · rw [List.isEmpty_cons, Bool.not_false, if_pos rfl, bind_eq_of_ok (readNext_run h), hrun]
          · rw [splitFrom_cons]
            exact ⟨hcons.tokens, hcons.errors, hcons.line⟩

/-- The scanner that goes by position ends, and it computes the scan of the text. -/
theorem tokenize_eq (source : String) :
    tokenize source = .ok ⟨(scan source).emitted.map ReadToken.of, (scan source).errors⟩ := by
  have hahead : Ahead source.toList ⟨0, 0, 1, [], []⟩ source.toList := ⟨Nat.zero_le _, rfl⟩
  obtain ⟨s, hrun, hgained⟩ := loop_readNext_run hahead (Nat.lt_succ_self _)
  have hread : repeatWhile (do return !(← atEnd)) readNext source.toList ⟨0, 0, 1, [], []⟩ =
      .ok () s := hrun
  have hline : s.line = (scan source).endLine := by
    rw [hgained.line, textOf_splitFrom]
    rfl
  have hfinish : finish source.toList s =
      .ok () { s with tokens := ReadToken.of ⟨.endOfText, "", s.line⟩ :: s.tokens } := rfl
  have htokens : s.tokens.reverse = (scan source).tokens.map ReadToken.of := hgained.tokens
  have herrors : s.errors.reverse = (scan source).errors := hgained.errors
  rw [tokenize, readAll, bind_eq_of_ok hread, hfinish]
  simp only [List.reverse_cons, htokens, herrors, hline, Scan.emitted, List.map_append,
    List.map_cons, List.map_nil]

end Runs

end Reader

/-- Segments that account for a text and for all that the scanner finds in it. -/
structure AccountsFor (segments : List Segment) (source : String) (found : Reading) : Prop where
  /-- Every character belongs to exactly one segment. -/
  whole : Segment.textOf segments = source.toList
  /-- Each segment is what the text from its start on makes it; a token is as long as it can be. -/
  fits : ∀ before s after, segments = before ++ s :: after → s.Fits (Segment.textOf after)
  /-- The tokens are emitted in order, and the end stands on the line behind all line breaks. -/
  emitted : found.tokens.map (·.token) =
    segments.filterMap Segment.token?
      ++ [⟨.endOfText, "", lineBehind source.toList⟩]
  /-- Stray characters and a string that is never closed are the errors, and nothing else is. -/
  errors : found.errors = segments.filterMap Segment.error?
  /-- A token stands on the line on which its lexeme ends. -/
  tokenLine : ∀ before s after kind, segments = before ++ s :: after → s.kind = .token kind →
    s.line = lineBehind (Segment.textOf before ++ s.text)
  /-- A stray character stands on the line that it is reached on. -/
  strayLine : ∀ before s after, segments = before ++ s :: after → s.kind = .stray →
    s.line = lineBehind (Segment.textOf before)
  /-- A string that is never closed is reported on the last line. -/
  unclosedLine : ∀ before s after, segments = before ++ s :: after → s.kind = .unclosed →
    s.line = lineBehind source.toList
  /-- A string denotes its lexeme without the two quotes. -/
  stringLiteral : ∀ t ∈ found.tokens, t.token.kind = .string →
    ∃ inside, t.token.lexeme = "\"" ++ inside ++ "\"" ∧ t.literal = .string inside

/-- The split of a text accounts for it, and for what the scanner finds in it. -/
theorem accountsFor_split (source : String) :
    AccountsFor (Segment.split source.toList) source
      ⟨(scan source).emitted.map ReadToken.of, (scan source).errors⟩ := by
  have hplaced : Segment.Placed 1 (Segment.split source.toList) :=
    Segment.placed_splitFrom 1 source.toList
  have hwhole : Segment.textOf (Segment.split source.toList) = source.toList :=
    Segment.textOf_splitFrom 1 source.toList
  constructor
  case whole => exact hwhole
  case fits =>
    intro before s after hsplit
    exact (hsplit ▸ hplaced).at.1
  case emitted =>
    have hsame : (fun t => (ReadToken.of t).token) = id := rfl
    rw [List.map_map, Function.comp_def, hsame, List.map_id]
    rfl
  case errors => rfl
  case tokenLine =>
    intro before s after kind hsplit _
    exact (hsplit ▸ hplaced).at.2
  case strayLine =>
    intro before s after hsplit hkind
    obtain ⟨hfits, hline⟩ := (hsplit ▸ hplaced).at
    rw [hline, List.count_append, hfits.count_stray hkind, Nat.add_zero]
    rfl
  case unclosedLine =>
    intro before s after hsplit hkind
    obtain ⟨hfits, hline⟩ := (hsplit ▸ hplaced).at
    rw [Segment.Fits, hkind] at hfits
    obtain ⟨inside, -, -, hafter⟩ := hfits
    rw [hline, ← hwhole, hsplit, Segment.textOf_append, Segment.textOf_cons, hafter,
      List.append_nil]
    rfl
  case stringLiteral =>
    intro t ht hkind
    obtain ⟨t, hmem, rfl⟩ := List.mem_map.mp ht
    rcases List.mem_append.mp hmem with hmem | hmem
    · obtain ⟨s, hs, htoken⟩ := List.mem_filterMap.mp hmem
      obtain ⟨before, after, hsplit⟩ := List.append_of_mem hs
      unfold Segment.token? at htoken
      split at htoken
      · next kind hs =>
          cases htoken
          obtain rfl : kind = .string := hkind
          exact (hsplit ▸ hplaced).at.1.denotes hs s.line
      · cases htoken
    · obtain rfl := List.mem_singleton.mp hmem
      cases hkind

/--
For every text the scanner ends without taking a character behind the end, and there are segments
that account for every character and every line of the text and for all that it has found.
-/
theorem Reader.tokenize_accounts (source : String) :
    ∃ found, Reader.tokenize source = .ok found ∧ ∃ segments, AccountsFor segments source found :=
  ⟨_, Reader.tokenize_eq source, _, accountsFor_split source⟩

end Lox
