import Lox.Token.Scan
import Mathlib

/-!
# Words of scanned texts

The kind of a scanned word says how the word is spelled, or how it is not spelled.

**Result.**
* `scan_spelled`: the instance is called `this`, and names are not called as it.
-/

namespace Lox

/-- The instance is called `this`, and nothing else is called as the instance or the superclass. -/
structure Token.Spelled (t : Token) : Prop where
  this : t.kind = .thisWord → t.lexeme = "this"
  identifier : t.kind = .identifier → t.lexeme ≠ "this" ∧ t.lexeme ≠ "super"

theorem TokenKind.eq_of_ofWord
    {word : String}
    (h : TokenKind.ofWord word = .thisWord) :
    word = "this" := by
  unfold TokenKind.ofWord reservedWords at h
  simp only [List.lookup] at h
  repeat' split at h
  all_goals simp_all

theorem TokenKind.ne_of_ofWord
    {word : String}
    (h : TokenKind.ofWord word = .identifier) :
    word ≠ "this" ∧ word ≠ "super" := by
  constructor
  · rintro rfl
    exact absurd h (by decide)
  · rintro rfl
    exact absurd h (by decide)

namespace Segment

/-- Of all that can start a segment, only words are of the kind of a word. -/
theorem ofWord_of_start
    {c : Char}
    {rest : List Char}
    {kind : TokenKind}
    (h : (start c rest).1 = .token kind)
    (hkind : kind = .thisWord ∨ kind = .identifier) :
    TokenKind.ofWord (String.ofList (c :: rest.take (start c rest).2)) = kind := by
  unfold start at h ⊢
  split at h
  · next found _ hfound =>
      unfold TokenKind.ofPunctuation? at hfound
      split at hfound <;> cases hfound <;> cases h <;> simp at hkind
  · next alone paired _ hkinds =>
      unfold TokenKind.ofComparison? at hkinds
      split at hkinds <;> cases hkinds <;> split at h <;> cases h <;> simp at hkind
  · split at h
    · unfold slashStart at h
      split at h <;> cases h
      simp at hkind
    · split at h
      · cases h
      · split at h
        · unfold stringStart at h
          dsimp only at h
          split at h <;> cases h
          simp at hkind
        · split at h
          · cases h
            simp at hkind
          · split at h
            · next hslash hblank hquote hdigit hletter =>
                simp only [*, if_true]
                simpa [wordStart] using h
            · cases h

theorem spelled_of_mem_splitFrom
    {line : Int}
    {text : List Char}
    {s : Segment}
    {t : Token}
    (hs : s ∈ splitFrom line text)
    (ht : s.token? = some t) :
    t.Spelled := by
  induction hn : text.length using Nat.strongRecOn generalizing line text with
  | ind n ih =>
      cases text with
      | nil => simp at hs
      | cons c rest =>
          rw [splitFrom_cons] at hs
          rcases List.mem_cons.mp hs with rfl | hs
          · unfold token? at ht
            split at ht
            · next kind hkind =>
                cases ht
                exact ⟨fun h => TokenKind.eq_of_ofWord
                    ((ofWord_of_start hkind (.inl h)).trans h),
                  fun h => TokenKind.ne_of_ofWord ((ofWord_of_start hkind (.inr h)).trans h)⟩
            · cases ht
          · exact ih _ (by simp at hn ⊢; omega) hs rfl

end Segment

/-- The tokens of a text are spelled as they should be. -/
theorem scan_spelled
    {source : String}
    {t : Token}
    (h : t ∈ (scan source).tokens) :
    t.Spelled := by
  obtain ⟨s, hs, ht⟩ := List.mem_filterMap.mp h
  exact Segment.spelled_of_mem_splitFrom hs ht

end Lox
