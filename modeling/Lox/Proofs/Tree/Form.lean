import Lox.Tree.Text
import Mathlib

/-!
# Texts in prefix form

A tree is written as a form: a word, or forms in parentheses with single spaces between them.  If
its words have neither blanks nor parentheses in them, except for what stands between two quotes,
then a form can be read back: no two forms have the same text.

**Main definitions.**
* `Form`: words and groups of forms.
* `Form.Legible`: the words of a form can be told apart.

**Results.**
* `Form.append_inj`: the text of a form tells the form, whatever follows it.
* `Form.eq_of_spaced_eq`: the text of several forms tells the forms.
-/

namespace Lox

/-- A word, or several forms in parentheses. -/
inductive Form
  | word (text : String)
  | group (parts : List Form)

namespace Form

mutual

def text : Form → String
  | .word w => w
  | .group parts => parenthesized (texts parts)

def texts : List Form → List String
  | [] => []
  | f :: fs => f.text :: texts fs

end

@[simp] theorem texts_eq_map (fs : List Form) : texts fs = fs.map text := by
  induction fs with
  | nil => rfl
  | cons f fs ih => rw [texts, ih, List.map_cons]

/-- The characters that a word without quotes is made of. -/
def isBare (c : Char) : Bool :=
  c != ' ' && c != '(' && c != ')' && c != '"'

/-- A word has no blanks, parentheses and quotes in it, or it is all in quotes. -/
inductive IsWord (w : String) : Prop
  | bare
      (hne : w.toList ≠ [])
      (hbare : ∀ d ∈ w.toList, isBare d = true)
  | quoted
      {inside : List Char}
      (htext : w.toList = '"' :: (inside ++ ['"']))
      (hinside : '"' ∉ inside)

/-- All words of a form can be told apart from what stands around them. -/
inductive Legible : Form → Prop
  | word {w : String} (h : IsWord w) : Legible (.word w)
  | group {parts : List Form} (h : ∀ f ∈ parts, f.Legible) : Legible (.group parts)

/-- What stands behind a form: a space, a closing parenthesis or nothing. -/
def Closes (rest : List Char) : Prop :=
  ∀ c ∈ rest.head?, c = ' ' ∨ c = ')'

/-- Two runs of characters end at the same place if something else follows them. -/
theorem run_unique
    {p : Char → Bool}
    {a b rest rest' : List Char}
    (ha : ∀ c ∈ a, p c = true)
    (hb : ∀ c ∈ b, p c = true)
    (hrest : ∀ c ∈ rest.head?, p c = false)
    (hrest' : ∀ c ∈ rest'.head?, p c = false)
    (h : a ++ rest = b ++ rest') :
    a = b ∧ rest = rest' := by
  have hrun {a rest : List Char} (ha : ∀ c ∈ a, p c = true)
      (hrest : ∀ c ∈ rest.head?, p c = false) : (a ++ rest).takeWhile p = a := by
    rw [List.takeWhile_append_of_pos ha]
    cases rest with
    | nil => simp
    | cons c rest => simp [hrest c rfl]
  obtain rfl : a = b := by rw [← hrun ha hrest, h, hrun hb hrest']
  exact ⟨rfl, List.append_cancel_left h⟩

/-- A word ends where it is closed. -/
theorem IsWord.append_inj
    {v w : String}
    (hv : IsWord v)
    (hw : IsWord w)
    {rest rest' : List Char}
    (hrest : Closes rest)
    (hrest' : Closes rest')
    (h : v.toList ++ rest = w.toList ++ rest') :
    v = w ∧ rest = rest' := by
  have hquote {c : Char} {more : List Char} {u : String} (hu : u.toList = c :: more)
      (hbare : ∀ d ∈ u.toList, isBare d = true) : c ≠ '"' := by
    rintro rfl
    exact absurd (hbare '"' (hu ▸ List.mem_cons_self)) (by decide)
  cases hv with
  | bare hv hvbare =>
      obtain ⟨c, more, hv⟩ := List.exists_cons_of_ne_nil hv
      cases hw with
      | bare _ hwbare =>
          have hclosed {rest : List Char} (hrest : Closes rest) :
              ∀ c ∈ rest.head?, isBare c = false := by
            intro c hc
            rcases hrest c hc with rfl | rfl
            · rfl
            · rfl
          obtain ⟨hsame, hbehind⟩ := run_unique hvbare hwbare (hclosed hrest) (hclosed hrest') h
          exact ⟨String.toList_inj.mp hsame, hbehind⟩
      | quoted hw _ =>
          rw [hv, hw] at h
          exact absurd (List.cons.inj h).1 (hquote hv hvbare)
  | quoted hv hvinside =>
      cases hw with
      | bare hw hwbare =>
          obtain ⟨c, more, hw⟩ := List.exists_cons_of_ne_nil hw
          rw [hv, hw] at h
          exact absurd (List.cons.inj h).1.symm (hquote hw hwbare)
      | quoted hw hwinside =>
          rw [hv, hw] at h
          simp only [List.cons_append, List.append_assoc, List.nil_append, List.cons.injEq,
            true_and] at h
          have hinside {inside : List Char} (hnone : '"' ∉ inside) :
              ∀ c ∈ inside, (c != '"') = true :=
            fun c hc => bne_iff_ne.mpr fun hsame => hnone (hsame ▸ hc)
          obtain ⟨rfl, hbehind⟩ := run_unique (hinside hvinside) (hinside hwinside)
            (by simp) (by simp) h
          exact ⟨String.toList_inj.mp (hv.trans hw.symm), (List.cons.inj hbehind).2⟩

theorem IsWord.head
    {w : String}
    (hw : IsWord w) :
    ∃ c rest, w.toList = c :: rest ∧ c ≠ '(' ∧ c ≠ ')' := by
  cases hw with
  | bare hne hbare =>
      obtain ⟨c, rest, htext⟩ := List.exists_cons_of_ne_nil hne
      refine ⟨c, rest, htext, ?_⟩
      have hc := hbare _ (htext ▸ List.mem_cons_self)
      simp only [isBare, Bool.and_eq_true, bne_iff_ne] at hc
      exact ⟨hc.1.1.2, hc.1.2⟩
  | quoted htext hinside => exact ⟨_, _, htext, by decide, by decide⟩

/-- What is written behind the first of several forms. -/
def behind (fs : List Form) (rest : List Char) : List Char :=
  if fs.isEmpty then ')' :: rest else ' ' :: ((spaced (texts fs)).toList ++ ')' :: rest)

theorem toList_text_group (parts : List Form) :
    (Form.group parts).text.toList = '(' :: ((spaced (texts parts)).toList ++ [')']) := by
  simp [text, parenthesized]

theorem toList_spaced_cons (f : Form) (fs : List Form) (rest : List Char) :
    (spaced (texts (f :: fs))).toList ++ ')' :: rest = f.text.toList ++ behind fs rest := by
  cases fs with
  | nil => simp [texts, spaced, behind]
  | cons g fs => simp [spaced, behind]

theorem closes_behind (fs : List Form) (rest : List Char) : Closes (behind fs rest) := by
  unfold Closes behind
  split <;> simp

/-- A form does not start like the end of a group. -/
theorem Legible.head
    {f : Form}
    (hf : f.Legible) :
    ∃ c rest, f.text.toList = c :: rest ∧ c ≠ ')' := by
  cases hf with
  | word hw =>
      obtain ⟨c, rest, htext, -, hc⟩ := hw.head
      exact ⟨c, rest, htext, hc⟩
  | group _ => exact ⟨'(', _, toList_text_group _, by decide⟩

mutual

/-- The text of a form tells the form and what follows it. -/
theorem append_inj :
    ∀ (f g : Form) {rest rest' : List Char}, f.Legible → g.Legible → Closes rest → Closes rest' →
      f.text.toList ++ rest = g.text.toList ++ rest' → f = g ∧ rest = rest'
  | .word v, .word w, _, _, .word hv, .word hw, hrest, hrest', h => by
      obtain ⟨rfl, rfl⟩ := hv.append_inj hw hrest hrest' h
      exact ⟨rfl, rfl⟩
  | .word v, .group gs, _, _, .word hv, .group _, _, _, h => by
      obtain ⟨c, more, htext, hc, -⟩ := hv.head
      rw [text, htext, toList_text_group] at h
      exact absurd (List.cons.inj h).1 hc
  | .group fs, .word w, _, _, .group _, .word hw, _, _, h => by
      obtain ⟨c, more, htext, hc, -⟩ := hw.head
      rw [text, htext, toList_text_group] at h
      exact absurd (List.cons.inj h).1.symm hc
  | .group fs, .group gs, rest, rest', .group hfs, .group hgs, _, _, h => by
      rw [toList_text_group, toList_text_group] at h
      simp only [List.cons_append, List.append_assoc, List.cons.injEq, true_and, List.nil_append]
        at h
      obtain ⟨rfl, rfl⟩ := spaced_append_inj fs gs hfs hgs h
      exact ⟨rfl, rfl⟩

/-- The same of several forms in parentheses. -/
theorem spaced_append_inj :
    ∀ (fs gs : List Form) {rest rest' : List Char}, (∀ f ∈ fs, f.Legible) → (∀ g ∈ gs, g.Legible) →
      (spaced (texts fs)).toList ++ ')' :: rest = (spaced (texts gs)).toList ++ ')' :: rest' →
        fs = gs ∧ rest = rest'
  | [], [], _, _, _, _, h => ⟨rfl, by simpa [texts, spaced] using h⟩
  | [], g :: gs, _, _, _, hgs, h => by
      obtain ⟨c, more, htext, hc⟩ := (hgs g List.mem_cons_self).head
      rw [toList_spaced_cons, htext] at h
      exact absurd (List.cons.inj h).1.symm hc
  | f :: fs, [], _, _, hfs, _, h => by
      obtain ⟨c, more, htext, hc⟩ := (hfs f List.mem_cons_self).head
      rw [toList_spaced_cons, htext] at h
      exact absurd (List.cons.inj h).1 hc
  | f :: fs, g :: gs, rest, rest', hall, hall', h => by
      obtain ⟨hf, hfs⟩ := List.forall_mem_cons.mp hall
      obtain ⟨hg, hgs⟩ := List.forall_mem_cons.mp hall'
      rw [toList_spaced_cons, toList_spaced_cons] at h
      obtain ⟨rfl, hbehind⟩ :=
        append_inj f g hf hg (closes_behind fs rest) (closes_behind gs rest') h
      have hmore : fs = gs ∧ rest = rest' := by
        cases fs with
        | nil =>
            cases gs with
            | nil => exact ⟨rfl, by simpa [behind] using hbehind⟩
            | cons g gs => simp [behind] at hbehind
        | cons f fs =>
            cases gs with
            | nil => simp [behind] at hbehind
            | cons g gs =>
                refine spaced_append_inj (f :: fs) (g :: gs) hfs hgs ?_
                simpa [behind] using hbehind
      exact ⟨congrArg (f :: ·) hmore.1, hmore.2⟩

end

/-- The text of several forms tells the forms. -/
theorem eq_of_spaced_eq
    {fs gs : List Form}
    (hfs : ∀ f ∈ fs, f.Legible)
    (hgs : ∀ g ∈ gs, g.Legible)
    (h : spaced (texts fs) = spaced (texts gs)) :
    fs = gs :=
  have htext :
      (spaced (texts fs)).toList ++ [')'] = (spaced (texts gs)).toList ++ [')'] := by rw [h]
  (spaced_append_inj fs gs hfs hgs htext).1

end Form

end Lox
