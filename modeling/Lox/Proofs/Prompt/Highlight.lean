import Lox.Proofs.Token.Account
import Lox.Prompt.Highlight

/-!
# Fragments and segments

Highlighting has the tokens of a line but not their places, and looks each of them up in the text.
On a single line this finds every token where the scanner has read it.  What the scanner leaves out
before a token are blanks and stray characters, and no token begins with one of those.  A comment
and a string that is never closed reach to the end of the line, so there is no token behind them.

Behind the last token there is no such guide.  The first pair of slashes there opens the comment, if
the line has one; but a string that is never closed may hold slashes too.

**Main definitions.**
* `placesFrom`: pieces of a text with the places where they start.
* `Segment.shown`: the fragments of a line, given by its segments.
* `ShownAsComment`, `SkippedAsComment`: a character is shown, or skipped by the scanner, as part of
  a comment.

**Results.**
* `fragmentsOf_splitFrom`: the fragments that are found are those that the segments give.
* `highlightLine_aligned`: the fragments make up the line, and every token is one of them, at its
  place.
* `shownAsComment_iff`: what is shown as a comment is a comment, or the rest of a string that is
  never closed, from the first pair of slashes in it on.
-/

namespace Lox

namespace Text

theorem before?_nil {piece : List Char} (hpiece : piece ≠ []) : before? piece [] = none := by
  simpa [before?] using hpiece

/-- A piece of text stands at the start of a text that begins with it. -/
theorem before?_append_self (piece rest : List Char) : before? piece (piece ++ rest) = some [] := by
  cases h : piece ++ rest with
  | nil => simp [before?, (List.append_eq_nil_iff.mp h).1]
  | cons c more =>
      have hprefix : piece.isPrefixOf (c :: more) = true := by
        rw [List.isPrefixOf_iff_prefix, ← h]
        exact List.prefix_append piece rest
      rw [before?, if_pos hprefix]

/-- A piece of text does not stand where its first character does not. -/
theorem before?_append
    {piece gap : List Char}
    (hgap : ∀ c ∈ gap, piece.head? ≠ some c)
    (hpiece : piece ≠ [])
    (text : List Char) :
    before? piece (gap ++ text) = (before? piece text).map (gap ++ ·) := by
  induction gap with
  | nil => simp
  | cons c gap ih =>
      have hhead : ¬ piece.isPrefixOf (c :: (gap ++ text)) = true := by
        intro hprefix
        obtain ⟨more, hmore⟩ := List.isPrefixOf_iff_prefix.mp hprefix
        obtain ⟨d, others, rfl⟩ := List.exists_cons_of_ne_nil hpiece
        exact hgap c List.mem_cons_self (by rw [(List.cons.inj hmore).1]; rfl)
      rw [List.cons_append, before?, if_neg hhead,
        ih fun d hd => hgap d (List.mem_cons_of_mem c hd), Option.map_map]
      rfl

/-- A piece of text stands behind the text before it. -/
theorem append_of_before?
    {piece text before : List Char}
    (h : before? piece text = some before) :
    ∃ behind, text = before ++ (piece ++ behind) := by
  induction text generalizing before with
  | nil =>
      cases piece with
      | nil => exact ⟨[], by simpa [before?] using h⟩
      | cons c rest => simp [before?] at h
  | cons c text ih =>
      rw [before?] at h
      split at h
      · next hprefix =>
          obtain ⟨behind, hbehind⟩ := List.isPrefixOf_iff_prefix.mp hprefix
          cases h
          exact ⟨behind, hbehind.symm⟩
      · obtain ⟨before', hbefore, rfl⟩ := Option.map_eq_some_iff.mp h
        obtain ⟨behind, hbehind⟩ := ih hbefore
        exact ⟨behind, congrArg (c :: ·) hbehind⟩

/-- The place that is found is the first one. -/
theorem exists_before?_le_iff
    {piece : List Char}
    (hpiece : piece ≠ [])
    (text : List Char)
    (n : Nat) :
    (∃ before, before? piece text = some before ∧ before.length ≤ n)
      ↔ ∃ j ≤ n, piece <+: text.drop j := by
  induction text generalizing n with
  | nil => simp [before?_nil hpiece, hpiece]
  | cons c text ih =>
      rw [before?]
      split
      · next hprefix =>
          have hfirst := List.isPrefixOf_iff_prefix.mp hprefix
          exact ⟨fun _ => ⟨0, Nat.zero_le n, hfirst⟩, fun _ => ⟨[], rfl, Nat.zero_le n⟩⟩
      · next hprefix =>
          rw [List.isPrefixOf_iff_prefix] at hprefix
          constructor
          · rintro ⟨_, hfound, hle⟩
            obtain ⟨before, hbefore, rfl⟩ := Option.map_eq_some_iff.mp hfound
            rw [List.length_cons] at hle
            obtain ⟨j, hj, hstands⟩ := (ih (n - 1)).mp ⟨before, hbefore, by omega⟩
            exact ⟨j + 1, by omega, hstands⟩
          · rintro ⟨j, hj, hstands⟩
            cases j with
            | zero => exact absurd hstands hprefix
            | succ j =>
                obtain ⟨before, hbefore, hle⟩ := (ih (n - 1)).mpr ⟨j, by omega, hstands⟩
                exact ⟨c :: before, by rw [hbefore]; rfl, by rw [List.length_cons]; omega⟩

end Text

/-- Pieces of a text, one behind another from a place on, with the places where they start. -/
def placesFrom {α : Type} (text : α → List Char) : Nat → List α → List (Nat × α)
  | _, [] => []
  | n, piece :: others => (n, piece) :: placesFrom text (n + (text piece).length) others

/-- The fragments of a line with the places where they start. -/
def fragmentPlaces (line : List Char) : List (Nat × Fragment) :=
  placesFrom Fragment.text 0 (highlightLine line)

/-- The segments of a line with the places where the scanner has read them. -/
def segmentPlaces (line : List Char) : List (Nat × Segment) :=
  placesFrom Segment.text 0 (Segment.split line)

/-- A token with its place, if the segment there is one. -/
def placedToken? (p : Nat × Segment) : Option (Nat × Token) :=
  p.2.token?.map fun t => (p.1, t)

/-- The tokens of a line with the places where the scanner has read them. -/
def tokenPlaces (line : List Char) : List (Nat × Token) :=
  (segmentPlaces line).filterMap placedToken?

section Places

variable {α : Type} (text : α → List Char)

theorem map_snd_placesFrom (n : Nat) (pieces : List α) :
    (placesFrom text n pieces).map Prod.snd = pieces := by
  induction pieces generalizing n with
  | nil => rfl
  | cons piece others ih => exact congrArg (piece :: ·) (ih _)

theorem placesFrom_append (n : Nat) (before after : List α) :
    placesFrom text n (before ++ after) =
      placesFrom text n before ++ placesFrom text (n + (before.flatMap text).length) after := by
  induction before generalizing n with
  | nil => rfl
  | cons piece others ih =>
      rw [List.cons_append, placesFrom, ih, placesFrom, List.flatMap_cons, List.length_append,
        Nat.add_assoc]
      rfl

end Places

/-- The tokens of a line are those that scanning finds. -/
theorem map_snd_tokenPlaces (line : List Char) :
    (tokenPlaces line).map Prod.snd = (Scan.ofList line).tokens := by
  have hplaced : Prod.snd ∘ (fun p : Nat × Segment => p) = Prod.snd := rfl
  rw [tokenPlaces, List.map_filterMap, Scan.ofList]
  conv_rhs => rw [← map_snd_placesFrom Segment.text 0 (Segment.split line), List.filterMap_map]
  refine List.filterMap_congr fun p _ => ?_
  simp [placedToken?, Function.comp_def]

@[simp] theorem Fragment.flatMap_text_ofText (style : Style) (text : List Char) :
    (Fragment.ofText style text).flatMap Fragment.text = text := by
  cases text <;> simp [Fragment.ofText]

namespace Segment

/-- No token starts with a character. -/
def StartsNoToken (c : Char) : Prop :=
  ∀ rest kind n, start c rest ≠ (.token kind, n)

theorem startsNoToken_of_blank
    {c : Char}
    {rest : List Char}
    {n : Nat}
    (h : start c rest = (.blank, n)) :
    StartsNoToken c := by
  have hblank : isBlank c = true := by
    have hstarts := starts c rest
    rw [h] at hstarts
    cases hstarts with
    | blank hblank => exact hblank
  intro rest' kind n' hother
  simp only [isBlank, Bool.or_eq_true, beq_iff_eq] at hblank
  rcases hblank with ((rfl | rfl) | rfl) | rfl <;> cases hother

theorem startsNoToken_of_stray
    {c : Char}
    {rest : List Char}
    {n : Nat}
    (h : start c rest = (.stray, n)) :
    StartsNoToken c := by
  have hstarts := starts c rest
  rw [h] at hstarts
  cases hstarts with
  | stray hpunctuation hcomparison hslash hblank hquote hdigit hletter =>
      intro rest' kind n' hother
      simp [start, hpunctuation, hcomparison, hslash, hblank, hquote, hdigit, hletter] at hother

/-- A slash starts a token if nothing is behind it. -/
theorem not_startsNoToken_slash : ¬ StartsNoToken '/' :=
  fun h => h [] .slash 0 rfl

/-- A single character that belongs to no token is one segment. -/
theorem extent_of_blank
    {c : Char}
    {rest : List Char}
    {n : Nat}
    (h : start c rest = (.blank, n)) :
    n = 0 := by
  have hstarts := starts c rest
  rw [h] at hstarts
  cases hstarts with
  | blank _ => rfl

theorem extent_of_stray
    {c : Char}
    {rest : List Char}
    {n : Nat}
    (h : start c rest = (.stray, n)) :
    n = 0 := by
  have hstarts := starts c rest
  rw [h] at hstarts
  cases hstarts with
  | stray _ _ _ _ _ _ _ => rfl

/-- On a single line, a comment is the last segment. -/
theorem eq_nil_of_comment
    {c : Char}
    {l behind : List Char}
    (h : start c (l ++ behind) = (.comment, l.length))
    (hline : '\n' ∉ behind) :
    behind = [] ∧ slashes <+: c :: l := by
  have hstarts := starts c (l ++ behind)
  rw [h] at hstarts
  generalize hextent : l.length = extent at hstarts
  cases hstarts with
  | comment hslash hnext =>
      obtain ⟨-, hend⟩ := countWhile_append_eq_length_iff.mp hextent.symm
      have hbehind : behind = [] := by
        cases behind with
        | nil => rfl
        | cons d more =>
            have hd : d = '\n' := by simpa using hend d rfl
            exact absurd (hd ▸ List.mem_cons_self) hline
      subst hbehind
      refine ⟨rfl, ?_⟩
      rw [List.append_nil] at hnext
      obtain ⟨more, rfl⟩ := List.head?_eq_some_iff.mp hnext
      exact ⟨more, by rw [hslash]; rfl⟩

/-- A string that is never closed is the last segment. -/
theorem eq_nil_of_unclosed
    {c : Char}
    {l behind : List Char}
    (h : start c (l ++ behind) = (.unclosed, l.length)) :
    behind = [] := by
  have hstarts := starts c (l ++ behind)
  rw [h] at hstarts
  generalize hextent : l.length = extent at hstarts
  cases hstarts with
  | unclosed _ hopen =>
      rw [← hextent, List.length_append] at hopen
      exact List.length_eq_zero_iff.mp (by omega)

/-- The fragments of a line by its segments, behind some text that belongs to no token. -/
def shown (gap : List Char) : List Segment → List Fragment
  | [] => Fragment.ofText .plain gap
  | s :: others =>
      match s.kind with
      | .token kind =>
          Fragment.ofText .plain gap ++ ⟨kind.group.style, s.text⟩ :: shown [] others
      | .blank => shown (gap ++ s.text) others
      | .stray => shown (gap ++ s.text) others
      | .comment =>
          Fragment.ofText .plain gap ++ Fragment.ofText .comment s.text ++ shown [] others
      | .unclosed =>
          match Text.before? slashes s.text with
          | some before =>
              Fragment.ofText .plain (gap ++ before)
                ++ Fragment.ofText .comment (s.text.drop before.length) ++ shown [] others
          | none => Fragment.ofText .plain (gap ++ s.text) ++ shown [] others

end Segment

section Search

variable
  {gap : List Char}
  (hgap : ∀ c ∈ gap, Segment.StartsNoToken c)
include hgap

/-- No slash is among the characters that start no token. -/
theorem before?_slashes_append (text : List Char) :
    Text.before? slashes (gap ++ text) = (Text.before? slashes text).map (gap ++ ·) := by
  refine Text.before?_append (fun c hc hslash => ?_) (by decide) text
  obtain rfl : '/' = c := Option.some.inj hslash
  exact Segment.not_startsNoToken_slash (hgap _ hc)

/-- A token is found where it stands. -/
theorem before?_lexeme
    {c : Char}
    {l behind : List Char}
    {kind : TokenKind}
    (hstart : Segment.start c (l ++ behind) = (.token kind, l.length)) :
    Text.before? (c :: l) (gap ++ (c :: l ++ behind)) = some gap := by
  have hfirst : ∀ d ∈ gap, (c :: l).head? ≠ some d := by
    intro d hd hsame
    obtain rfl : c = d := Option.some.inj hsame
    exact hgap c hd _ _ _ hstart
  rw [Text.before?_append hfirst (List.cons_ne_nil c l), Text.before?_append_self]
  simp

/-- Behind the last token, a comment is found where it stands. -/
theorem tailFragments_comment
    {text : List Char}
    (htext : slashes <+: text) :
    tailFragments (gap ++ text) = Fragment.ofText .plain gap ++ Fragment.ofText .comment text := by
  obtain ⟨more, rfl⟩ := htext
  rw [tailFragments, before?_slashes_append hgap, Text.before?_append_self]
  simp

theorem tailFragments_plain : tailFragments gap = Fragment.ofText .plain gap := by
  have hnone := before?_slashes_append hgap []
  rw [List.append_nil, Text.before?_nil (by decide)] at hnone
  rw [tailFragments, hnone]
  rfl

/-- Behind the last token, slashes in a string that is never closed are found as well. -/
theorem tailFragments_append (text : List Char) :
    tailFragments (gap ++ text) =
      match Text.before? slashes text with
      | some before =>
          Fragment.ofText .plain (gap ++ before)
            ++ Fragment.ofText .comment (text.drop before.length)
      | none => Fragment.ofText .plain (gap ++ text) := by
  rw [tailFragments, before?_slashes_append hgap]
  cases Text.before? slashes text with
  | none => rfl
  | some before =>
      have hdrop : (gap ++ text).drop (gap.length + before.length) = text.drop before.length := by
        rw [← List.drop_drop, List.drop_left]
      simp [hdrop]

end Search

/-- On a single line, the fragments that are found are those that the segments give. -/
theorem fragmentsOf_splitFrom
    {text gap : List Char}
    (hline : '\n' ∉ text)
    (hgap : ∀ c ∈ gap, Segment.StartsNoToken c)
    (line : Int) :
    fragmentsOf ((Segment.splitFrom line text).filterMap Segment.token?) (gap ++ text) =
      Segment.shown gap (Segment.splitFrom line text) := by
  generalize hsegments : Segment.splitFrom line text = segments
  induction segments generalizing line text gap with
  | nil =>
      have htext : text = [] := by rw [← Segment.textOf_splitFrom line text, hsegments]; rfl
      subst htext
      rw [List.append_nil]
      exact tailFragments_plain hgap
  | cons s others ih =>
      obtain ⟨c, l, behind, rfl, htext, hstart, hothers⟩ :=
        Segment.exists_of_splitFrom_eq_cons hsegments
      have hbehind : '\n' ∉ behind := fun h =>
        hline (List.mem_cons_of_mem c (List.mem_append_right l h))
      obtain ⟨kind, _, last⟩ := s
      obtain rfl : _ = c :: l := htext
      -- A character that belongs to no token is added to the gap.
      have hskipped (hc : Segment.StartsNoToken c) (hl : l = []) :
          fragmentsOf (others.filterMap Segment.token?) (gap ++ c :: (l ++ behind)) =
            Segment.shown (gap ++ c :: l) others := by
        subst hl
        have hmore : ∀ d ∈ gap ++ [c], Segment.StartsNoToken d := by
          intro d hd
          rcases List.mem_append.mp hd with hd | hd
          · exact hgap d hd
          · exact List.mem_singleton.mp hd ▸ hc
        simpa using ih hbehind hmore last hothers
      cases kind with
      | token kind =>
          have hrest := @ih behind [] hbehind (by simp) last hothers
          have hfound := before?_lexeme hgap hstart
          rw [List.cons_append] at hfound
          simpa [Segment.token?, fragmentsOf, Token.fragment, Segment.shown, hfound] using hrest
      | blank =>
          exact hskipped (Segment.startsNoToken_of_blank hstart)
            (List.length_eq_zero_iff.mp (Segment.extent_of_blank hstart))
      | stray =>
          exact hskipped (Segment.startsNoToken_of_stray hstart)
            (List.length_eq_zero_iff.mp (Segment.extent_of_stray hstart))
      | comment =>
          obtain ⟨rfl, hslashes⟩ := Segment.eq_nil_of_comment hstart hbehind
          obtain rfl : others = [] := by simpa using hothers.symm
          have htail := tailFragments_comment hgap hslashes
          simp only [Segment.token?, List.filterMap_cons, List.filterMap_nil, fragmentsOf,
            Segment.shown, List.append_nil, htail, Fragment.ofText]
      | unclosed =>
          obtain rfl := Segment.eq_nil_of_unclosed hstart
          obtain rfl : others = [] := by simpa using hothers.symm
          have htail := tailFragments_append hgap (c :: l)
          simp only [Segment.token?, List.filterMap_cons, List.filterMap_nil, fragmentsOf,
            Segment.shown, List.append_nil, htail, Fragment.ofText]

namespace Segment

/-- The fragments make up the gap and the segments. -/
theorem flatMap_text_shown (gap : List Char) (segments : List Segment) :
    (shown gap segments).flatMap Fragment.text = gap ++ textOf segments := by
  induction segments generalizing gap with
  | nil => simp [shown, textOf]
  | cons s others ih =>
      rw [shown, textOf_cons]
      split
      · simp [ih]
      · simp [ih]
      · simp [ih]
      · simp [ih]
      · split
        · next before hbefore =>
            obtain ⟨behind, hbehind⟩ := Text.append_of_before? hbefore
            have htext : before ++ s.text.drop before.length = s.text := by
              rw [hbehind, List.drop_left]
            simp only [List.flatMap_append, Fragment.flatMap_text_ofText, ih, List.nil_append]
            rw [List.append_assoc gap, htext, List.append_assoc]
        · simp [ih]

end Segment

/-- On a single line, the fragments are those that the segments give; an empty line has one too. -/
theorem highlightLine_eq
    {line : List Char}
    (hline : '\n' ∉ line) :
    highlightLine line =
      if line = [] then [⟨.plain, []⟩] else Segment.shown [] (Segment.split line) := by
  have hfound : fragmentsOf (Scan.ofList line).tokens line =
      Segment.shown [] (Segment.split line) :=
    @fragmentsOf_splitFrom line [] hline (by simp) 1
  have hwhole : (Segment.shown [] (Segment.split line)).flatMap Fragment.text = line :=
    (Segment.flatMap_text_shown [] _).trans (Segment.textOf_splitFrom 1 line)
  rw [highlightLine, hfound]
  split
  · next hnone =>
      obtain rfl : line = [] := by rw [← hwhole, hnone]; rfl
      rw [if_pos rfl]
  · next hsome =>
      rw [if_neg]
      rintro rfl
      exact hsome (by simp [Segment.split, Segment.shown, Fragment.ofText])

theorem flatMap_text_highlightLine
    {line : List Char}
    (hline : '\n' ∉ line) :
    (highlightLine line).flatMap Fragment.text = line := by
  rw [highlightLine_eq hline]
  split
  · next hempty => simp [hempty]
  · exact (Segment.flatMap_text_shown [] _).trans (Segment.textOf_splitFrom 1 line)

/-- The tokens among some segments are among the fragments, at the same places. -/
theorem Segment.tokens_sublist_shown (gap : List Char) (segments : List Segment) (n : Nat) :
    (((placesFrom Segment.text (n + gap.length) segments).filterMap placedToken?).map
        fun p => (p.1, p.2.fragment)).Sublist
      (placesFrom Fragment.text n (shown gap segments)) := by
  induction segments generalizing gap n with
  | nil => exact List.nil_sublist _
  | cons s others ih =>
      -- Behind fragments for the gap and the segment, the others are found by induction.
      have hbehind (front : List Fragment)
          (hfront : front.flatMap Fragment.text = gap ++ s.text) :
          (((placesFrom Segment.text (n + gap.length + s.text.length) others).filterMap
              placedToken?).map fun p => (p.1, p.2.fragment)).Sublist
            (placesFrom Fragment.text n (front ++ shown [] others)) := by
        rw [placesFrom_append, hfront, List.length_append, ← Nat.add_assoc]
        exact (ih [] _).trans (List.sublist_append_right _ _)
      obtain ⟨kind, text, last⟩ := s
      cases kind with
      | token kind =>
          have hrest := ih [] (n + gap.length + text.length)
          have htext : (String.ofList text).toList = text := String.toList_ofList
          simp only [placesFrom, placedToken?, token?, List.filterMap_cons, Option.map_some,
            List.map_cons, shown, placesFrom_append, Fragment.flatMap_text_ofText, Token.fragment,
            htext]
          exact (hrest.cons_cons _).trans (List.sublist_append_right _ _)
      | blank =>
          have hrest := ih (gap ++ text) n
          rw [List.length_append, ← Nat.add_assoc] at hrest
          exact hrest
      | stray =>
          have hrest := ih (gap ++ text) n
          rw [List.length_append, ← Nat.add_assoc] at hrest
          exact hrest
      | comment => exact hbehind _ (by simp)
      | unclosed =>
          have hwhole := flatMap_text_shown gap [⟨.unclosed, text, last⟩]
          have hshown : shown gap (⟨.unclosed, text, last⟩ :: others) =
              shown gap [⟨.unclosed, text, last⟩] ++ shown [] others := by
            simp only [shown]
            split <;> simp [Fragment.ofText]
          rw [hshown]
          exact hbehind _ (by simpa [textOf] using hwhole)

/--
The fragments of a line make up the line.  The tokens of the line are among them, in their order:
each at the place where the scanner has read it, with its lexeme and in the style of its group.
-/
theorem highlightLine_aligned
    {line : List Char}
    (hline : '\n' ∉ line) :
    (highlightLine line).flatMap Fragment.text = line
      ∧ (tokenPlaces line).map Prod.snd = (Scan.ofList line).tokens
      ∧ ((tokenPlaces line).map fun p =>
            (p.1, Fragment.mk p.2.kind.group.style p.2.lexeme.toList)).Sublist
          (fragmentPlaces line) := by
  refine ⟨flatMap_text_highlightLine hline, map_snd_tokenPlaces line, ?_⟩
  rw [fragmentPlaces, highlightLine_eq hline]
  split
  · next hempty =>
      subst hempty
      simp [tokenPlaces, segmentPlaces, Segment.split, placesFrom]
  · exact Segment.tokens_sublist_shown [] (Segment.split line) 0

/-- The string has in it what is also a token before it, and a stray character stands in between. -/
theorem highlightLine_aligned_repeated :
    let line := "a@\"a\" a // a".toList
    '\n' ∉ line
      ∧ (highlightLine line).flatMap Fragment.text = line
      ∧ tokenPlaces line =
        [(0, ⟨.identifier, "a", 1⟩), (2, ⟨.string, "\"a\"", 1⟩), (6, ⟨.identifier, "a", 1⟩)]
      ∧ [(0, Fragment.mk .plain ['a']), (2, ⟨.string, ['"', 'a', '"']⟩),
        (6, ⟨.plain, ['a']⟩)].Sublist
          (fragmentPlaces line) := by
  have hline : '\n' ∉ "a@\"a\" a // a".toList := by decide
  obtain ⟨hwhole, -, hsublist⟩ := highlightLine_aligned hline
  have hplaces : tokenPlaces "a@\"a\" a // a".toList =
      [(0, ⟨.identifier, "a", 1⟩), (2, ⟨.string, "\"a\"", 1⟩), (6, ⟨.identifier, "a", 1⟩)] := by
    cbv
  rw [hplaces] at hsublist
  exact ⟨hline, hwhole, hplaces, hsublist⟩

/-- A place in a text lies in a piece that starts at another place. -/
def LiesIn {α : Type} (text : α → List Char) (i : Nat) (p : Nat × α) : Prop :=
  p.1 ≤ i ∧ i < p.1 + (text p.2).length

/-- A character is shown as part of a comment. -/
def ShownAsComment (line : List Char) (i : Nat) : Prop :=
  ∃ p ∈ fragmentPlaces line, p.2.style = .comment ∧ LiesIn Fragment.text i p

/-- The scanner skips a character as part of a comment. -/
def SkippedAsComment (line : List Char) (i : Nat) : Prop :=
  ∃ p ∈ segmentPlaces line, p.2.kind = .comment ∧ LiesIn Segment.text i p

/-- A character lies in a string that is never closed, in or behind two slashes of that string. -/
def BehindSlashesInString (line : List Char) (i : Nat) : Prop :=
  ∃ p ∈ segmentPlaces line, p.2.kind = .unclosed ∧ LiesIn Segment.text i p
    ∧ ∃ j, p.1 + j ≤ i ∧ slashes <+: p.2.text.drop j

section Comments

variable (i : Nat)

/-- The pieces from a place on have a character that is shown as part of a comment. -/
def CommentFrom (n : Nat) (fragments : List Fragment) : Prop :=
  ∃ p ∈ placesFrom Fragment.text n fragments, p.2.style = .comment ∧ LiesIn Fragment.text i p

/-- A segment that is skipped as a comment, or that has slashes but is never closed. -/
def LooksLikeComment (p : Nat × Segment) : Prop :=
  LiesIn Segment.text i p
    ∧ (p.2.kind = .comment
      ∨ p.2.kind = .unclosed ∧ ∃ j, p.1 + j ≤ i ∧ slashes <+: p.2.text.drop j)

theorem commentFrom_ofText (n : Nat) (style : Style) (text : List Char) (others : List Fragment) :
    CommentFrom i n (Fragment.ofText style text ++ others)
      ↔ style = .comment ∧ n ≤ i ∧ i < n + text.length
        ∨ CommentFrom i (n + text.length) others := by
  cases text with
  | nil =>
      have hempty : ¬ (n ≤ i ∧ i < n) := by omega
      simp [Fragment.ofText, hempty]
  | cons c rest => simp [Fragment.ofText, CommentFrom, placesFrom, LiesIn]

/-- A string that is never closed is shown as a comment from the first slashes on. -/
theorem commentFrom_unclosed
    (gap text : List Char)
    (last : Int)
    (others : List Segment)
    (n : Nat) :
    CommentFrom i n (Segment.shown gap (⟨.unclosed, text, last⟩ :: others))
      ↔ LooksLikeComment i (n + gap.length, ⟨.unclosed, text, last⟩)
        ∨ CommentFrom i (n + gap.length + text.length) (Segment.shown [] others) := by
  have hfirst := Text.exists_before?_le_iff (show slashes ≠ [] by decide) text
    (i - (n + gap.length))
  have hplace : LooksLikeComment i (n + gap.length, ⟨.unclosed, text, last⟩)
      ↔ (n + gap.length ≤ i ∧ i < n + gap.length + text.length)
        ∧ ∃ before, Text.before? slashes text = some before
          ∧ before.length ≤ i - (n + gap.length) := by
    simp only [LooksLikeComment, LiesIn, reduceCtorEq, false_or, true_and]
    refine and_congr_right fun hlies => (exists_congr fun j => ?_).trans hfirst.symm
    exact and_congr_left fun _ => by omega
  rw [hplace, Segment.shown]
  cases hbefore : Text.before? slashes text with
  | none => simp [commentFrom_ofText, List.length_append, Nat.add_assoc]
  | some before =>
      obtain ⟨behind, rfl⟩ := Text.append_of_before? hbefore
      simp only [List.append_assoc, commentFrom_ofText, reduceCtorEq, false_and, false_or,
        true_and, List.drop_left, List.length_append, Option.some.injEq, exists_eq_left']
      refine or_congr ?_ (by simp only [Nat.add_assoc])
      omega

theorem commentFrom_shown (gap : List Char) (segments : List Segment) (n : Nat) :
    CommentFrom i n (Segment.shown gap segments)
      ↔ ∃ p ∈ placesFrom Segment.text (n + gap.length) segments, LooksLikeComment i p := by
  induction segments generalizing gap n with
  | nil =>
      have hgap := commentFrom_ofText i n .plain gap []
      simpa [Segment.shown, placesFrom, CommentFrom] using hgap
  | cons s others ih =>
      obtain ⟨kind, text, last⟩ := s
      have hplaces : (∃ p ∈ placesFrom Segment.text (n + gap.length) (⟨kind, text, last⟩ :: others),
          LooksLikeComment i p)
            ↔ LooksLikeComment i (n + gap.length, ⟨kind, text, last⟩)
              ∨ CommentFrom i (n + gap.length + text.length) (Segment.shown [] others) := by
        rw [ih [], placesFrom, List.exists_mem_cons_iff]
        rfl
      have hskipped (hkind : kind ≠ .comment ∧ kind ≠ .unclosed) :
          CommentFrom i n (Segment.shown (gap ++ text) others)
            ↔ LooksLikeComment i (n + gap.length, ⟨kind, text, last⟩)
              ∨ CommentFrom i (n + gap.length + text.length) (Segment.shown [] others) := by
        rw [ih (gap ++ text), ih [], List.length_append, ← Nat.add_assoc]
        simp [LooksLikeComment, hkind]
      rw [hplaces]
      cases kind with
      | token kind =>
          have hplain : kind.group.style ≠ .comment := by
            cases kind.group <;> simp [TokenGroup.style]
          rw [Segment.shown, commentFrom_ofText]
          simp [CommentFrom, placesFrom, LooksLikeComment, hplain]
      | blank => exact hskipped ⟨nofun, nofun⟩
      | stray => exact hskipped ⟨nofun, nofun⟩
      | comment =>
          rw [Segment.shown, List.append_assoc, commentFrom_ofText, commentFrom_ofText]
          simp [LooksLikeComment, LiesIn]
      | unclosed => exact commentFrom_unclosed i gap text last others n

end Comments

/--
What is shown as a comment is what the scanner skips as one, and the rest of a string that is never
closed, from the first two slashes in it on.  Nothing else is: no token, no blank, no stray
character.
-/
theorem shownAsComment_iff
    {line : List Char}
    (hline : '\n' ∉ line)
    (i : Nat) :
    ShownAsComment line i ↔ SkippedAsComment line i ∨ BehindSlashesInString line i := by
  have hshown : ShownAsComment line i ↔ ∃ p ∈ segmentPlaces line, LooksLikeComment i p := by
    rw [ShownAsComment, fragmentPlaces, highlightLine_eq hline]
    split
    · next hempty =>
        subst hempty
        simp [placesFrom, segmentPlaces, Segment.split]
    · exact commentFrom_shown i [] (Segment.split line) 0
  rw [hshown, SkippedAsComment, BehindSlashesInString, ← exists_or]
  refine exists_congr fun p => ?_
  rw [LooksLikeComment]
  tauto

/-- The address in the string is shown as a comment, as long as the string is not closed. -/
theorem shownAsComment_iff_address :
    let line := "print \"http://a".toList
    '\n' ∉ line
      ∧ ShownAsComment line 14
      ∧ ¬ SkippedAsComment line 14
      ∧ (Scan.ofList line).errors = [⟨.unclosedString, 1⟩] := by
  have hline : '\n' ∉ "print \"http://a".toList := by decide
  have hsegments : segmentPlaces "print \"http://a".toList =
      [(0, ⟨.token .printWord, "print".toList, 1⟩), (5, ⟨.blank, [' '], 1⟩),
        (6, ⟨.unclosed, "\"http://a".toList, 1⟩)] := by
    cbv
  refine ⟨hline, ?_, ?_, by cbv⟩
  · refine (shownAsComment_iff hline 14).mpr (.inr ?_)
    rw [BehindSlashesInString, hsegments]
    refine ⟨(6, ⟨.unclosed, "\"http://a".toList, 1⟩), by simp, rfl, ⟨by decide, by decide⟩, 6, ?_⟩
    exact ⟨by decide, ['a'], by decide⟩
  · rintro ⟨p, hp, hkind, -⟩
    rw [hsegments] at hp
    simp only [List.mem_cons, List.not_mem_nil, or_false] at hp
    rcases hp with rfl | rfl | rfl <;> cases hkind

end Lox
