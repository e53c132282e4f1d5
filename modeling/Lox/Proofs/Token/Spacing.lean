import Lox.Proofs.Token.Account
import Lox.Tree.Text

/-!
# Spaces between tokens

The lexeme of a token is read as that token wherever a space or the end of the text follows it.  So
the tokens of a text can be written out with single spaces between them and scanned again.  And what
lies between the tokens of a text can be replaced by spaces: then the scanner sees behind each token
either what it has seen before or a space.  Only the line break that ends a comment has to stay, as
long as the comment does.

**Main definitions.**
* `writtenOut`: tokens with single spaces between them.
* `Spacing`: a text in which spaces take the place of some segments between the tokens.

**Results.**
* `tokens_survive_spacing`: the tokens stay the same, except for their lines.
* `line_break_behind_comment_counts`: with a space in place of a line break behind a comment, tokens
  are lost.
-/

namespace Lox

/-- All of a token but its line. -/
def Token.content (t : Token) : TokenKind × String × Literal :=
  (t.kind, t.lexeme, t.literal)

/-- Tokens written one behind another with single spaces between them. -/
def writtenOut (tokens : List Token) : String :=
  spaced (tokens.map Token.lexeme)

namespace Segment

/-- What lies between tokens: white space, comments and stray characters. -/
def isBetween (s : Segment) : Bool :=
  s.kind == .blank || s.kind == .comment || s.kind == .stray

/--
What the scanner can see of a text where a token ends is a space, or it was there before: the next
character, and the digit behind a point.
-/
def NothingNew (behind behind' : List Char) : Prop :=
  ∀ d ∈ behind'.head?, d = ' ' ∨ behind.head? = some d
    ∧ (d = '.' → ∀ e ∈ behind'.tail.head?, isDigit e = true → behind.tail.head? = some e)

section Extents

variable {p : Char → Bool} {l behind behind' : List Char}

theorem NothingNew.head
    (h : NothingNew behind behind')
    (hspace : p ' ' = false)
    (hbehind : ∀ c ∈ behind.head?, p c = false) :
    ∀ c ∈ behind'.head?, p c = false := by
  intro c hc
  rcases h c hc with rfl | ⟨hsame, -⟩
  · exact hspace
  · exact hbehind c hsame

theorem NothingNew.countWhile
    (h : NothingNew behind behind')
    (hspace : p ' ' = false)
    (hcount : countWhile p (l ++ behind) = l.length) :
    countWhile p (l ++ behind') = l.length := by
  obtain ⟨hall, hend⟩ := countWhile_append_eq_length_iff.mp hcount
  exact countWhile_append_eq_length_iff.mpr ⟨hall, h.head hspace hend⟩

/-- No digits follow behind a point where none did. -/
theorem NothingNew.fractionExtent
    (h : NothingNew behind behind')
    (hnone : Grammar.fractionExtent behind = 0) :
    Grammar.fractionExtent behind' = 0 := by
  unfold Grammar.fractionExtent
  split
  · next rest =>
      rcases h '.' rfl with hspace | ⟨hsame, hdigit⟩
      · exact absurd hspace (by decide)
      · obtain ⟨more, rfl⟩ := List.head?_eq_some_iff.mp hsame
        rw [if_pos]
        cases rest with
        | nil => rfl
        | cons e rest =>
            by_contra hne
            have he : isDigit e = true := by
              by_contra he
              simp [Segment.countWhile, he] at hne
            obtain ⟨more, rfl⟩ := List.head?_eq_some_iff.mp (hdigit rfl e rfl he)
            simp [Grammar.fractionExtent, Segment.countWhile, he] at hnone
  · rfl

/-- The point and the digits behind it end where they did. -/
theorem NothingNew.fractionExtent_append
    (h : NothingNew behind behind')
    (hextent : Grammar.fractionExtent (l ++ behind) = l.length) :
    Grammar.fractionExtent (l ++ behind') = l.length := by
  cases l with
  | nil => exact h.fractionExtent hextent
  | cons c fraction =>
      by_cases hpoint : c = '.'
      · subst hpoint
        simp only [List.cons_append, Grammar.fractionExtent, List.length_cons] at hextent ⊢
        split at hextent
        · omega
        · have hcount :
              Segment.countWhile isDigit (fraction ++ behind) = fraction.length := by omega
          rw [h.countWhile (by decide) hcount, if_neg (by omega)]
          omega
      · exfalso
        simp only [List.cons_append, List.length_cons] at hextent
        unfold Grammar.fractionExtent at hextent
        split at hextent
        · next heq => exact hpoint (List.cons.inj heq).1
        · omega

theorem NothingNew.numberExtent
    (h : NothingNew behind behind')
    (hextent : numberExtent (l ++ behind) = l.length) :
    numberExtent (l ++ behind') = l.length := by
  obtain ⟨whole, more, hsplit, -, hwhole, hmore⟩ :=
    Grammar.exists_countWhile isDigit (l ++ behind)
  rw [hsplit, Grammar.numberExtent_append hwhole hmore] at hextent
  obtain ⟨fraction, rfl, rfl⟩ : ∃ fraction, l = whole ++ fraction ∧ more = fraction ++ behind := by
    rcases List.append_eq_append_iff.mp hsplit with ⟨digits, rfl, rfl⟩ | hfraction
    · obtain rfl : digits = [] := List.length_eq_zero_iff.mp (by
        rw [List.length_append] at hextent
        omega)
      exact ⟨[], by simp, rfl⟩
    · exact hfraction
  have hmore' : ∀ c ∈ (fraction ++ behind').head?, isDigit c = false := by
    cases fraction with
    | nil => exact h.head (by decide) hmore
    | cons c fraction => exact hmore
  rw [List.length_append, Nat.add_right_inj] at hextent
  rw [List.append_assoc, Grammar.numberExtent_append hwhole hmore',
    h.fractionExtent_append hextent, List.length_append]

theorem stringStart_append_of_length
    {kind : TokenKind}
    (h : stringStart (l ++ behind) = (.token kind, l.length))
    (behind' : List Char) :
    stringStart (l ++ behind') = (.token kind, l.length) := by
  have hl : stringStart l = (.token kind, l.length) := by
    unfold stringStart at h ⊢
    dsimp only at h ⊢
    split at h
    · obtain ⟨hkind, hcount⟩ := Prod.mk.inj h
      have hlt : countWhile (· != '"') l < l.length := by
        by_contra hall
        have hevery := (Grammar.forall_mem_take_iff (p := (· != '"')) l le_rfl).mpr (by omega)
        rw [List.take_length] at hevery
        rw [Grammar.countWhile_append_of_all hevery] at hcount
        omega
      rw [if_pos hlt, ← countWhile_append_of_lt hlt behind, hcount, hkind]
    · cases h
  rw [stringStart_append (by rw [hl]; simp), hl]

theorem NothingNew.head?_ne
    (h : NothingNew behind behind')
    {d : Char}
    (hspace : d ≠ ' ')
    (hne : behind.head? ≠ some d) :
    behind'.head? ≠ some d := by
  intro hd
  rcases h d hd with rfl | ⟨hsame, -⟩
  · exact hspace rfl
  · exact hne hsame

/-- A single slash opens no comment where it did not. -/
theorem NothingNew.slashStart
    {kind : TokenKind}
    (h : NothingNew behind behind')
    (hstart : slashStart (l ++ behind) = (.token kind, l.length)) :
    slashStart (l ++ behind') = (.token kind, l.length) := by
  unfold Segment.slashStart at hstart ⊢
  split at hstart
  · cases hstart
  · next hnext =>
      cases l with
      | nil =>
          have hnext' := h.head?_ne (d := '/') (by decide) (by simpa using hnext)
          rw [if_neg (by simpa using hnext'), hstart]
      | cons d l => simp at hstart

end Extents

/-- A token stays the same where nothing new follows it. -/
theorem start_append_of_nothingNew
    {c : Char}
    {l behind behind' : List Char}
    {kind : TokenKind}
    (hstart : start c (l ++ behind) = (.token kind, l.length))
    (h : NothingNew behind behind') :
    start c (l ++ behind') = (.token kind, l.length) := by
  unfold start at hstart ⊢
  split at hstart
  · exact hstart
  · cases l with
    | nil =>
        split at hstart
        · simp at hstart
        · next hnext =>
            have hnext' := h.head?_ne (d := '=') (by decide) (by simpa using hnext)
            rw [List.nil_append, if_neg (by simpa using hnext'), hstart]
    | cons d l => exact hstart
  · split at hstart
    · next hslash => rw [if_pos hslash, h.slashStart hstart]
    · next hslash =>
        rw [if_neg hslash]
        split at hstart
        · cases hstart
        · next hblank =>
            rw [if_neg hblank]
            split at hstart
            · next hquote => rw [if_pos hquote, stringStart_append_of_length hstart]
            · next hquote =>
                rw [if_neg hquote]
                split at hstart
                · next hdigit =>
                    obtain ⟨hkind, hextent⟩ := Prod.mk.inj hstart
                    rw [if_pos hdigit, h.numberExtent hextent, hkind]
                · next hdigit =>
                    rw [if_neg hdigit]
                    split at hstart
                    · next hletter =>
                        obtain ⟨hkind, hextent⟩ := Prod.mk.inj hstart
                        rw [hextent, List.take_left] at hkind
                        rw [if_pos hletter, wordStart, h.countWhile (by decide) hextent,
                          List.take_left, hkind]
                    · cases hstart

/-- What starts a text is its first segment. -/
theorem splitFrom_of_start
    {c : Char}
    {l more : List Char}
    {kind : SegmentKind}
    (hstart : start c (l ++ more) = (kind, l.length))
    (line : Int) :
    ∃ line', splitFrom line (c :: (l ++ more)) = ⟨kind, c :: l, line'⟩ :: splitFrom line' more := by
  refine ⟨line + (c :: l).count '\n', ?_⟩
  rw [splitFrom_cons, first, hstart, List.take_left, List.drop_left]

theorem splitFrom_space
    (line : Int)
    (more : List Char) :
    ∃ line', splitFrom line (' ' :: more) = ⟨.blank, [' '], line'⟩ :: splitFrom line' more := by
  have hstart : start ' ' ([] ++ more) = (.blank, ([] : List Char).length) := rfl
  exact splitFrom_of_start hstart line

end Segment

open Segment

theorem Token.content_eq
    {t u : Token}
    (hkind : t.kind = u.kind)
    (hlexeme : t.lexeme = u.lexeme) :
    t.content = u.content := by
  rw [content, content, literal, literal, hkind, hlexeme]

/-- A token that is read as such wherever a space or the end follows its lexeme. -/
def Token.StandsAlone (t : Token) : Prop :=
  ∃ c l, t.lexeme.toList = c :: l
    ∧ ∀ more : List Char, (∀ d ∈ more.head?, d = ' ') →
      start c (l ++ more) = (.token t.kind, l.length)

theorem standsAlone_of_mem_splitFrom
    {line : Int}
    {text : List Char}
    {t : Token}
    (ht : t ∈ (splitFrom line text).filterMap token?) :
    t.StandsAlone := by
  obtain ⟨c, l, behind, hlexeme, hstart⟩ := start_of_mem_splitFrom ht
  refine ⟨c, l, by rw [hlexeme, String.toList_ofList], fun more hmore => ?_⟩
  exact start_append_of_nothingNew hstart fun d hd => .inl (hmore d hd)

/-- Tokens that stand alone are found again where they are written out. -/
theorem split_writtenOut
    {tokens : List Token}
    (h : ∀ t ∈ tokens, t.StandsAlone)
    (line : Int) :
    (splitFrom line (writtenOut tokens).toList).filterMap error? = []
      ∧ ((splitFrom line (writtenOut tokens).toList).filterMap token?).map Token.content =
        tokens.map Token.content := by
  induction tokens generalizing line with
  | nil => simp [writtenOut, spaced]
  | cons t rest ih =>
      obtain ⟨⟨c, l, hlexeme, hstart⟩, hrest⟩ := List.forall_mem_cons.mp h
      have hcontent (line' : Int) :
          Token.content ⟨t.kind, String.ofList (c :: l), line'⟩ = t.content :=
        Token.content_eq rfl (by rw [← hlexeme, String.ofList_toList])
      cases rest with
      | nil =>
          have htext : (writtenOut [t]).toList = c :: (l ++ []) := by
            simp [writtenOut, spaced, hlexeme]
          obtain ⟨line', hsplit⟩ := splitFrom_of_start (hstart [] nofun) line
          rw [htext, hsplit, splitFrom_nil]
          exact ⟨rfl, congrArg (fun x => [x]) (hcontent line')⟩
      | cons u rest =>
          have htext : (writtenOut (t :: u :: rest)).toList =
              c :: (l ++ ' ' :: (writtenOut (u :: rest)).toList) := by
            simp [writtenOut, spaced, hlexeme]
          obtain ⟨line', hsplit⟩ :=
            splitFrom_of_start (hstart (' ' :: (writtenOut (u :: rest)).toList) (by simp)) line
          obtain ⟨line'', hspace⟩ := splitFrom_space line' (writtenOut (u :: rest)).toList
          obtain ⟨herrors, htokens⟩ := ih hrest line''
          rw [htext, hsplit, hspace]
          exact ⟨herrors, congrArg₂ List.cons (hcontent line') htokens⟩

/-- A text of segments, with a space in place of each that is marked. -/
def spacedOut (choice : List (Segment × Bool)) : List Char :=
  choice.flatMap fun p => if p.2 then [' '] else p.1.text

/--
Segments of a text, some of which are marked to be replaced by a space.  All of these lie between
tokens, and behind a comment that is kept its line break is kept too.
-/
structure Spacing (source : String) (choice : List (Segment × Bool)) : Prop where
  segments : choice.map Prod.fst = split source.toList
  between : ∀ p ∈ choice, p.2 = true → p.1.isBetween = true
  breaks : choice.IsChain fun p q => p.1.kind = .comment → p.2 = false → q.2 = false

theorem head?_spacedOut
    {choice : List (Segment × Bool)}
    {line : Int}
    {text : List Char}
    (hsegments : choice.map Prod.fst = splitFrom line text) :
    ∀ d ∈ (spacedOut choice).head?, d = ' ' ∨ text.head? = some d := by
  intro d hd
  cases choice with
  | nil => simp [spacedOut] at hd
  | cons p choice =>
      obtain ⟨c, l, behind, rfl, htext, -, -⟩ := exists_of_splitFrom_eq_cons hsegments.symm
      cases hmark : p.2 with
      | true => exact .inl (by simpa [spacedOut, hmark] using Eq.symm hd)
      | false => exact .inr (by simpa [spacedOut, hmark, htext] using hd)

/-- Spaces in place of what lies between tokens are nothing new. -/
theorem nothingNew_spacedOut
    {choice : List (Segment × Bool)}
    {line : Int}
    {text : List Char}
    (hsegments : choice.map Prod.fst = splitFrom line text) :
    NothingNew text (spacedOut choice) := by
  intro d hd
  cases choice with
  | nil => simp [spacedOut] at hd
  | cons p choice =>
      obtain ⟨c, l, behind, rfl, htext, hstart, hothers⟩ :=
        exists_of_splitFrom_eq_cons hsegments.symm
      cases hmark : p.2 with
      | true => exact .inl (by simpa [spacedOut, hmark] using Eq.symm hd)
      | false =>
          obtain rfl : c = d := by simpa [spacedOut, hmark, htext] using hd
          refine .inr ⟨rfl, ?_⟩
          rintro rfl e he hdigit
          -- A point at the start of a segment is the whole segment.
          obtain rfl : l = [] := List.length_eq_zero_iff.mp (congrArg Prod.snd hstart).symm
          have htail : (spacedOut ((p.1, p.2) :: choice)).tail = spacedOut choice := by
            simp [spacedOut, hmark, htext]
          rw [htail] at he
          rcases head?_spacedOut hothers.symm e he with rfl | hsame
          · exact absurd hdigit (by decide)
          · exact hsame

/-- A comment reaches as far as before if its line break is kept. -/
theorem countWhile_append_spacedOut
    {p : Char → Bool}
    {l behind : List Char}
    {choice : List (Segment × Bool)}
    {line : Int}
    (hcount : countWhile p (l ++ behind) = l.length)
    (hsegments : choice.map Prod.fst = splitFrom line behind)
    (hkept : ∀ q ∈ choice.head?, q.2 = false) :
    countWhile p (l ++ spacedOut choice) = l.length := by
  obtain ⟨hall, hend⟩ := countWhile_append_eq_length_iff.mp hcount
  refine countWhile_append_eq_length_iff.mpr ⟨hall, ?_⟩
  cases choice with
  | nil => exact nofun
  | cons q choice =>
      obtain ⟨c, l, behind, rfl, htext, -, -⟩ := exists_of_splitFrom_eq_cons hsegments.symm
      have hmark : q.2 = false := hkept q rfl
      have hhead : (spacedOut (q :: choice)).head? = some c := by simp [spacedOut, hmark, htext]
      rw [hhead]
      exact hend

/-- A segment stays the same where spaces are put behind it, a comment if its line break is kept. -/
theorem start_append_spacedOut
    {c : Char}
    {l behind : List Char}
    {kind : SegmentKind}
    {choice : List (Segment × Bool)}
    {line : Int}
    (hstart : start c (l ++ behind) = (kind, l.length))
    (hsegments : choice.map Prod.fst = splitFrom line behind)
    (hbreak : kind = .comment → ∀ q ∈ choice.head?, q.2 = false) :
    start c (l ++ spacedOut choice) = (kind, l.length) := by
  have hstarts := starts c (l ++ behind)
  rw [hstart] at hstarts
  cases kind with
  | token kind => exact start_append_of_nothingNew hstart (nothingNew_spacedOut hsegments)
  | blank =>
      generalize hextent : l.length = extent at hstarts ⊢
      cases hstarts with
      | blank hblank =>
          have hc : ((c = ' ' ∨ c = '\r') ∨ c = '\t') ∨ c = '\n' := by
            simpa [Segment.isBlank] using hblank
          rcases hc with ((rfl | rfl) | rfl) | rfl <;> rfl
  | stray =>
      generalize hextent : l.length = extent at hstarts ⊢
      cases hstarts with
      | stray hpunctuation hcomparison hslash hblank hquote hdigit hletter =>
          simp [start, hpunctuation, hcomparison, hslash, hblank, hquote, hdigit, hletter]
  | comment =>
      generalize hextent : l.length = extent at hstarts ⊢
      cases hstarts with
      | comment hslash hnext =>
          have hcount := countWhile_append_spacedOut hextent.symm hsegments (hbreak rfl)
          cases l with
          | nil =>
              -- The second slash belongs to the comment.
              obtain ⟨more, hmore⟩ := List.head?_eq_some_iff.mp hnext
              rw [hmore] at hextent
              simp [countWhile] at hextent
          | cons d l =>
              obtain rfl : d = '/' := by simpa using hnext
              rw [hslash, ← hextent, ← hcount]
              rfl
  | unclosed =>
      generalize hextent : l.length = extent at hstarts ⊢
      cases hstarts with
      | unclosed hquote hopen =>
          obtain rfl : behind = [] := List.length_eq_zero_iff.mp (by
            rw [← hextent, List.length_append] at hopen
            omega)
          obtain rfl : choice = [] := by simpa using hsegments
          rw [← hextent]
          exact hstart

/-- The tokens of a text stay the same when spaces are put between them. -/
theorem split_spacedOut
    {choice : List (Segment × Bool)}
    {line : Int}
    {text : List Char}
    (hsegments : choice.map Prod.fst = splitFrom line text)
    (hbetween : ∀ p ∈ choice, p.2 = true → p.1.isBetween = true)
    (hbreaks : choice.IsChain fun p q => p.1.kind = .comment → p.2 = false → q.2 = false)
    (line' : Int) :
    ((splitFrom line' (spacedOut choice)).filterMap token?).map Token.content =
      ((splitFrom line text).filterMap token?).map Token.content := by
  induction choice generalizing line text line' with
  | nil =>
      rw [← hsegments]
      simp [spacedOut]
  | cons p choice ih =>
      obtain ⟨s, mark⟩ := p
      obtain ⟨c, l, behind, rfl, htext, hstart, hothers⟩ :=
        exists_of_splitFrom_eq_cons hsegments.symm
      obtain ⟨hhead, htail⟩ := List.forall_mem_cons.mp hbetween
      have hrest := ih hothers.symm htail hbreaks.tail
      have hsplit : splitFrom line (c :: (l ++ behind)) = s :: splitFrom s.line behind := by
        rw [hothers]
        exact hsegments.symm
      rw [hsplit]
      cases mark with
      | true =>
          obtain ⟨line'', hspace⟩ := splitFrom_space line' (spacedOut choice)
          have hnone : s.token? = none := by
            have hs := hhead rfl
            unfold isBetween at hs
            unfold token?
            split
            · next hkind => simp [hkind] at hs
            · rfl
          have hout : spacedOut ((s, true) :: choice) = ' ' :: spacedOut choice := rfl
          rw [hout, hspace, List.filterMap_cons_none rfl, List.filterMap_cons_none hnone, hrest]
      | false =>
          have hout : spacedOut ((s, false) :: choice) = c :: (l ++ spacedOut choice) :=
            congrArg (· ++ spacedOut choice) htext
          have hkept : start c (l ++ spacedOut choice) = (s.kind, l.length) :=
            start_append_spacedOut hstart hothers.symm fun hkind q hq =>
              (List.isChain_cons.mp hbreaks).1 q hq hkind rfl
          obtain ⟨line'', hsame⟩ := splitFrom_of_start hkept line'
          rw [hout, hsame]
          obtain ⟨kind, lexeme, line⟩ := s
          obtain rfl : lexeme = c :: l := htext
          cases kind with
          | token kind => exact congrArg (_ :: ·) (hrest line'')
          | _ => exact hrest line''

/--
The tokens of a text can be written out and scanned again, and they stay the same when spaces take
the place of what lies between them.
-/
theorem tokens_survive_spacing (source : String) :
    (scan (writtenOut (scan source).tokens)).errors = []
      ∧ (scan (writtenOut (scan source).tokens)).emitted.map Token.content =
        (scan source).emitted.map Token.content
      ∧ ∀ choice : List (Segment × Bool), Spacing source choice →
        (scan (String.ofList (spacedOut choice))).emitted.map Token.content =
          (scan source).emitted.map Token.content := by
  have hemitted {found found' : Scan}
      (h : found.tokens.map Token.content = found'.tokens.map Token.content) :
      found.emitted.map Token.content = found'.emitted.map Token.content := by
    simp only [Scan.emitted, List.map_append, h]
    rfl
  have halone : ∀ t ∈ (scan source).tokens, t.StandsAlone := fun _ => standsAlone_of_mem_splitFrom
  obtain ⟨herrors, htokens⟩ := split_writtenOut halone 1
  refine ⟨herrors, hemitted htokens, fun choice h => hemitted ?_⟩
  have hsame := split_spacedOut h.segments h.between h.breaks 1
  rwa [← String.toList_ofList (l := spacedOut choice)] at hsame

/-- A stray character, a comment and the line break behind it give way to spaces. -/
theorem tokens_survive_spacing_of_comment :
    let choice : List (Segment × Bool) :=
      [(⟨.token .identifier, ['a'], 1⟩, false), (⟨.stray, ['@'], 1⟩, true),
        (⟨.comment, ['/', '/', 'b'], 1⟩, true), (⟨.blank, ['\n'], 2⟩, true),
        (⟨.token .identifier, ['c'], 2⟩, false)]
    Spacing "a@//b\nc" choice ∧ String.ofList (spacedOut choice) = "a   c"
      ∧ (scan (String.ofList (spacedOut choice))).emitted.map Token.content =
        (scan "a@//b\nc").emitted.map Token.content := by
  intro choice
  have h : Spacing "a@//b\nc" choice := ⟨by cbv, by decide, by decide⟩
  exact ⟨h, by decide, (tokens_survive_spacing "a@//b\nc").2.2 choice h⟩

/--
With a space in place of the line break behind a comment, the comment takes the tokens behind it.
-/
theorem line_break_behind_comment_counts :
    ¬ ∀ (source : String) (choice : List (Segment × Bool)),
      choice.map Prod.fst = split source.toList →
      (∀ p ∈ choice, p.2 = true → p.1.isBetween = true) →
      (scan (String.ofList (spacedOut choice))).emitted.map Token.content =
        (scan source).emitted.map Token.content := by
  intro h
  have hsame := h "//\n;"
    [(⟨.comment, ['/', '/'], 1⟩, false), (⟨.blank, ['\n'], 2⟩, true),
      (⟨.token .semicolon, [';'], 2⟩, false)]
    (by cbv) (by decide)
  have hlost : (scan (String.ofList ['/', '/', ' ', ';'])).emitted.length = 1 := by cbv
  have hfound : (scan "//\n;").emitted.length = 2 := by cbv
  have hlength := congrArg List.length hsame
  rw [List.length_map, List.length_map, hfound] at hlength
  exact absurd (hlost.symm.trans hlength) (by decide)

end Lox
