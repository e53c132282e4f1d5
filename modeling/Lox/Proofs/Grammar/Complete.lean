import Lox.Proofs.Grammar.Levels
import Lox.Tree.Parse.Stmt

/-!
# What is derived the parser reads

On a text that the grammar derives the parser never gives up, whatever stands behind the text, if
it does not continue the text.  It takes the tokens of the text and no more.  A text may be derived
and still have no tree, since it assigns to something else than a name or a property, or calls with
too many arguments; the parser reads it all the same, and reports an error.  So `Reads` joins the
tree of the text, if it has one, to the value and the new errors of the parser.

The grammar repeats by recursion on the left, and the parser by a loop.  `Enters` says that a text
has brought the parser into its loop, and each further part of the text is one step of the loop.

**Result.**
* `Parse.read_of_builds`: a derivation of all tokens has the tree that the parser yields, if
  the parser reports no error, and has no tree otherwise.
-/

namespace Lox
namespace Parser

open Grammar

variable {α β γ : Type}

/-- A value without errors. -/
def clean (a : α) (errors : List ParseError) : Option α :=
  if errors.isEmpty then some a else none

@[simp] theorem clean_nil (a : α) : clean a [] = some a := rfl

@[simp] theorem clean_cons (a : α) (e : ParseError) (es : List ParseError) :
    clean a (e :: es) = none := rfl

/-- Nothing has been reported if nothing was reported before and nothing since. -/
theorem clean_append (a : α) (b : β) (newer new : List ParseError) :
    clean b (newer ++ new) = (clean a new).bind fun _ => clean b newer := by
  cases new <;> cases newer <;> rfl

/-- A parser reads a text with this tree, if what stands behind the text allows it. -/
def Reads
    (parser : Parser α)
    (used : List Token)
    (tree : Option α)
    (follow : List Token → Prop) : Prop :=
  ∀ rest errors, follow rest → ∃ a new,
    parser ⟨used ++ rest, errors⟩ = .ok a ⟨rest, new ++ errors⟩ ∧ tree = clean a new

/-- Where the first parser is done, the second goes on. -/
theorem bind_eq_of_ok
    {x : Parser α}
    {f : α → Parser β}
    {s s' : ParseState}
    {a : α}
    (h : x s = .ok a s') :
    (x >>= f) s = f a s' := by
  simp only [bind, EStateM.bind, h]

/-- A token of another kind is not taken. -/
theorem accept_stops
    {kinds : List TokenKind}
    {rest : List Token}
    {errors : List ParseError}
    (h : Stops kinds rest) :
    accept kinds ⟨rest, errors⟩ = .ok none ⟨rest, errors⟩ := by
  unfold accept
  cases rest with
  | nil => rfl
  | cons t ts =>
      rw [stops_cons] at h
      simp [h]

/-- A token of one of the kinds is taken. -/
theorem accept_cons
    {kinds : List TokenKind}
    {t : Token}
    {rest : List Token}
    {errors : List ParseError}
    (h : t.kind ∈ kinds) :
    accept kinds ⟨t :: rest, errors⟩ = .ok (some t) ⟨rest, errors⟩ := by
  simp [accept, h]

section Steps

variable {used second : List Token} {follow after : List Token → Prop}

/-- Without a token read there is a tree. -/
theorem reads_pure (a : α) : Reads (pure a : Parser α) [] (some a) follow :=
  fun _ _ _ => ⟨a, [], rfl, rfl⟩

/--
What is read by one parser and then by another, if the first may stop where the second starts.
-/
theorem reads_bind
    {x : Parser α}
    {f : α → Parser β}
    {tree : Option α}
    {next : α → Option β}
    (hx : Reads x used tree after)
    (hf : ∀ a, Reads (f a) second (next a) follow)
    (hafter : ∀ rest, follow rest → after (second ++ rest)) :
    Reads (x >>= f) (used ++ second) (tree.bind next) follow := by
  intro rest errors hrest
  obtain ⟨a, new, hrun, htree⟩ := hx (second ++ rest) errors (hafter rest hrest)
  obtain ⟨b, newer, hrun', htree'⟩ := hf a rest (new ++ errors) hrest
  refine ⟨b, newer ++ new, ?_, ?_⟩
  · rw [List.append_assoc, bind_eq_of_ok hrun, hrun', List.append_assoc]
  · rw [htree, clean_append a b]
    cases new with
    | nil => exact htree'
    | cons e es => rfl

/-- A parser that may stop before more texts may stop before fewer. -/
theorem reads_mono
    {parser : Parser α}
    {tree : Option α}
    (h : Reads parser used tree after)
    (hafter : ∀ rest, follow rest → after rest) :
    Reads parser used tree follow :=
  fun rest errors hrest => h rest errors (hafter rest hrest)

/-- The tree that is read can be changed afterwards. -/
theorem reads_map
    {parser : Parser α}
    {tree : Option α}
    (f : α → β)
    (h : Reads parser used tree follow) :
    Reads (f <$> parser) used (tree.map f) follow := by
  have hbind := reads_bind (f := fun a => pure (f a)) h (fun a => reads_pure (f a))
    fun _ hrest => hrest
  rw [List.append_nil] at hbind
  cases tree <;> exact hbind

/-- A token of one of the kinds is taken. -/
theorem reads_accept
    {kinds : List TokenKind}
    {f : Option Token → Parser β}
    {t : Token}
    {tree : Option β}
    (ht : t.kind ∈ kinds)
    (hf : Reads (f (some t)) second tree follow) :
    Reads (accept kinds >>= f) (t :: second) tree follow := by
  intro rest errors hrest
  obtain ⟨b, new, hrun, htree⟩ := hf rest errors hrest
  refine ⟨b, new, ?_, htree⟩
  rw [List.cons_append, bind_eq_of_ok (accept_cons ht), hrun]

/-- No token is taken if the next one is of none of the kinds. -/
theorem reads_accept_none
    {kinds : List TokenKind}
    {f : Option Token → Parser β}
    {tree : Option β}
    (hf : Reads (f none) second tree follow)
    (hstops : ∀ rest, follow rest → Stops kinds (second ++ rest)) :
    Reads (accept kinds >>= f) second tree follow := by
  intro rest errors hrest
  obtain ⟨b, new, hrun, htree⟩ := hf rest errors hrest
  refine ⟨b, new, ?_, htree⟩
  rw [bind_eq_of_ok (accept_stops (hstops rest hrest)), hrun]

/-- A token that is expected is taken. -/
theorem reads_expect
    {kind : TokenKind}
    {missing : Expectation}
    {f : Token → Parser β}
    {t : Token}
    {tree : Option β}
    (ht : t.kind = kind)
    (hf : Reads (f t) second tree follow) :
    Reads (expect kind missing >>= f) (t :: second) tree follow := by
  intro rest errors hrest
  obtain ⟨b, new, hrun, htree⟩ := hf rest errors hrest
  refine ⟨b, new, ?_, htree⟩
  have hexpect : expect kind missing ⟨t :: second ++ rest, errors⟩ =
      .ok t ⟨second ++ rest, errors⟩ := by
    rw [expect, List.cons_append, bind_eq_of_ok (accept_cons (by simp [ht]))]
    rfl
  rw [bind_eq_of_ok hexpect, hrun]

/-- A token that is expected is read, whatever follows it. -/
theorem reads_expect_last
    {kind : TokenKind}
    {missing : Expectation}
    {t : Token}
    (ht : t.kind = kind) :
    Reads (expect kind missing) [t] (some t) follow :=
  reads_accept (by simp [ht]) (reads_pure t)

/-- What is seen ahead and not of one of the kinds. -/
theorem reads_check
    {kinds : List TokenKind}
    {f : Bool → Parser β}
    (found : Bool)
    {tree : Option β}
    (hf : Reads (f found) second tree follow)
    (hfound : ∀ rest, follow rest →
      ((second ++ rest).head?.any fun t => kinds.contains t.kind) = found) :
    Reads (check kinds >>= f) second tree follow := by
  intro rest errors hrest
  obtain ⟨b, new, hrun, htree⟩ := hf rest errors hrest
  have hcheck : check kinds ⟨second ++ rest, errors⟩ = .ok found ⟨second ++ rest, errors⟩ := by
    rw [← hfound rest hrest]
    rfl
  exact ⟨b, new, by rw [bind_eq_of_ok hcheck, hrun], htree⟩

end Steps

section Loops

variable {used second : List Token} {follow after : List Token → Prop}
variable {loop : List Token → α → Parser β} {tree : Option α}

/-- After a text, the parser is in its loop with the value of the text. -/
def Enters
    (parser : Parser β)
    (loop : List Token → α → Parser β)
    (used : List Token)
    (tree : Option α)
    (follow : List Token → Prop) : Prop :=
  ∀ rest errors, follow rest → ∃ a new bound,
    parser ⟨used ++ rest, errors⟩ = loop bound a ⟨rest, new ++ errors⟩
      ∧ tree = clean a new ∧ rest.length ≤ bound.length

/-- A text is one round of a loop, which changes the value in this way. -/
def Rounds
    (loop : List Token → α → Parser β)
    (used : List Token)
    (step : α → Option α)
    (follow : List Token → Prop) : Prop :=
  ∀ a t bound rest errors, follow rest → ∃ a' new,
    loop (t :: bound) a ⟨used ++ rest, errors⟩ = loop bound a' ⟨rest, new ++ errors⟩
      ∧ step a = clean a' new

theorem enters_bounded
    {x : Parser α}
    (hx : Reads x used tree follow) :
    Enters (x >>= fun a => bounded fun bound => loop bound a) loop used tree follow := by
  intro rest errors hrest
  obtain ⟨a, new, hrun, htree⟩ := hx rest errors hrest
  exact ⟨a, new, rest, by rw [bind_eq_of_ok hrun, bounded], htree, le_rfl⟩

/-- Every part of a text behind the first is a round of the loop. -/
theorem Enters.round
    {parser : Parser β}
    {step : α → Option α}
    (h : Enters parser loop used tree after)
    (hround : Rounds loop second step follow)
    (hsecond : second ≠ [])
    (hafter : ∀ rest, follow rest → after (second ++ rest)) :
    Enters parser loop (used ++ second) (tree.bind step) follow := by
  intro rest errors hrest
  obtain ⟨a, new, bound, hrun, htree, hbound⟩ := h (second ++ rest) errors (hafter rest hrest)
  have hlength : 0 < second.length := List.length_pos_of_ne_nil hsecond
  rw [List.length_append] at hbound
  cases bound with
  | nil =>
      rw [List.length_nil] at hbound
      omega
  | cons t bound =>
      obtain ⟨a', newer, hrun', hstep⟩ := hround a t bound rest (new ++ errors) hrest
      rw [List.length_cons] at hbound
      refine ⟨a', newer ++ new, bound, ?_, ?_, by omega⟩
      · rw [List.append_assoc, hrun, hrun', List.append_assoc]
      · rw [htree, clean_append a a']
        cases new with
        | nil => exact hstep
        | cons e es => rfl

/-- The loop ends before what no round can start with. -/
theorem Enters.reads
    {parser : Parser β}
    (h : Enters parser loop used tree after)
    (result : α → β)
    (hafter : ∀ rest, follow rest → after rest)
    (hend : ∀ a bound rest errors, follow rest → rest.length ≤ bound.length →
      loop bound a ⟨rest, errors⟩ = .ok (result a) ⟨rest, errors⟩) :
    Reads parser used (tree.map result) follow := by
  intro rest errors hrest
  obtain ⟨a, new, bound, hrun, htree, hbound⟩ := h rest errors (hafter rest hrest)
  refine ⟨result a, new, ?_, ?_⟩
  · rw [hrun, hend a bound rest _ hrest hbound]
  · rw [htree]
    cases new <;> rfl

end Loops

/-- A parser reads a text whose phrase is of this form. -/
def ReadsAs
    (parser : Parser α)
    (form : α → Phrase)
    (used : List Token)
    (phrase : Option Phrase)
    (follow : List Token → Prop) : Prop :=
  ∃ tree : Option α, phrase = tree.map form ∧ Reads parser used tree follow

/-- A parser reads all texts of a category that are not longer than this. -/
def ReadsUpTo
    (n : Nat)
    (parser : Parser α)
    (c : Category)
    (form : α → Phrase)
    (follow : Bool → List Token → Prop) : Prop :=
  ∀ used phrase isOpen, used.length ≤ n → Builds (.category c) used phrase isOpen →
    ReadsAs parser form used phrase (follow isOpen)

section Lists

/-- The next token is of this kind. -/
def Next (kind : TokenKind) (rest : List Token) : Prop :=
  ∃ t ts, rest = t :: ts ∧ t.kind = kind

/-- The next token is of no kind that would be taken. -/
theorem Next.stops
    {kind : TokenKind}
    {kinds : List TokenKind}
    {rest : List Token}
    (h : Next kind rest)
    (hkind : kind ∉ kinds) :
    Stops kinds rest := by
  obtain ⟨t, ts, rfl, rfl⟩ := h
  exact stops_cons.mpr hkind

/-- A category derives lists of items with commas between them. -/
structure ListOf
    (c : Category)
    (one more : Meaning)
    (item : Symbol)
    (form : α → Phrase)
    (formAll : List α → Phrase) : Prop where
  rules_eq : rules.filter (·.category == c) =
    [⟨c, one, [item]⟩, ⟨c, more, [.category c, .terminal .comma, item]⟩]
  phraseOf_one (a : α) : phraseOf one [form a] = some (formAll [a])
  phraseOf_more (found : List α) (comma : Token) (a : α) :
    phraseOf more [formAll found, .token comma, form a] = some (formAll (found ++ [a]))

/-- A further item before those found so far, if there are not too many. -/
def consLimited (item : Option α) (found : List α) : Option (List α) :=
  item.bind fun a => if found.length < mostArguments then some (a :: found) else none

/-- The items found so far, the latest first, if there are not too many. -/
def foundOf (items : Option (List α)) : Option (List α) :=
  (items.bind limited).map List.reverse

/-- One more item is found behind those found before. -/
theorem foundOf_append (items : Option (List α)) (item : Option α) :
    foundOf (items.bind fun found => item.map fun a => found ++ [a])
      = (foundOf items).bind (consLimited item) := by
  cases items with
  | none => rfl
  | some found =>
      cases item with
      | none => cases hfound : foundOf (some found) <;> simp [foundOf, consLimited]
      | some a =>
          simp only [foundOf, consLimited, limited, Option.bind_some, Option.map_some,
            List.length_append, List.length_singleton]
          by_cases hlimit : found.length < mostArguments
          · rw [if_pos (by omega), if_pos (by omega)]
            simp [consLimited, hlimit]
          · rw [if_neg (by omega)]
            split <;> simp [consLimited, hlimit]

/-- One round of a list takes a comma and an item. -/
theorem rounds_collectSeparated
    {excess : ParseFault}
    {item : Parser α}
    {comma : Token}
    {second : List Token}
    {tree : Option α}
    {follow : List Token → Prop}
    (hcomma : comma.kind = .comma)
    (hitem : Reads item second tree follow) :
    Rounds (fun bound found => collectSeparated excess item bound found.length found)
      (comma :: second) (consLimited tree) follow := by
  intro found t bound rest errors hrest
  have haccept : accept [.comma] ⟨comma :: second ++ rest, errors⟩
      = .ok (some comma) ⟨second ++ rest, errors⟩ := accept_cons (by simp [hcomma])
  dsimp only
  rw [collectSeparated, bind_eq_of_ok haccept]
  dsimp only
  split
  · next hexcess =>
      -- the report comes before the item, so it is among its earlier errors
      obtain ⟨a, new, hrun, htree⟩ :=
        hitem rest (⟨excess, (second ++ rest).head?⟩ :: errors) hrest
      refine ⟨a :: found, new ++ [⟨excess, (second ++ rest).head?⟩], ?_, ?_⟩
      · change (item >>= fun x => collectSeparated excess item bound (found.length + 1)
          (x :: found)) ⟨second ++ rest, ⟨excess, (second ++ rest).head?⟩ :: errors⟩ = _
        rw [bind_eq_of_ok hrun, List.append_assoc]
        rfl
      · rw [clean_append (), clean_cons]
        have hfull : ¬ found.length < mostArguments := by omega
        cases tree <;> simp [consLimited, hfull]
  · next hexcess =>
      obtain ⟨a, new, hrun, htree⟩ := hitem rest errors hrest
      refine ⟨a :: found, new, ?_, ?_⟩
      · exact bind_eq_of_ok hrun
      · rw [consLimited, htree]
        cases new with
        | nil => simp; omega
        | cons e es => rfl

/-- To look at the next token changes nothing. -/
theorem check_eq (kinds : List TokenKind) (s : ParseState) :
    check kinds s = .ok (s.ahead.head?.any fun t => kinds.contains t.kind) s := rfl

variable {n : Nat} {c : Category} {one more : Meaning} {item : Symbol}
variable {form : α → Phrase} {formAll : List α → Phrase}
variable {parser : Parser α} {follow : List Token → Prop} {excess : ParseFault}

/-- The items of a list are rounds of the loop that collects them. -/
theorem enters_inParentheses
    (excess : ParseFault)
    (hlist : ListOf c one more item form formAll)
    (hitem : ∀ used phrase o, used.length ≤ n → Builds item used phrase o →
      ReadsAs parser form used phrase follow)
    (hopens : ∀ used phrase o, Builds item used phrase o →
      ∃ t ts, used = t :: ts ∧ t.kind ≠ .rightParen)
    (hcomma : ∀ t ts, t.kind = .comma → follow (t :: ts))
    (size : Nat) :
    ∀ used phrase o, used.length = size → size ≤ n → Builds (.category c) used phrase o →
      ∃ items : Option (List α), phrase = items.map formAll
        ∧ Enters (inParentheses excess parser)
          (fun bound found => collectSeparated excess parser bound found.length found)
          used (foundOf items) follow := by
  induction size using Nat.strongRecOn with
  | ind size ih =>
      intro used phrase o hsize hn hbuilt
      obtain ⟨rule, hrule, ps, o', hrow, rfl, rfl⟩ := hbuilt.cases hlist.rules_eq
      simp only [List.mem_cons, List.not_mem_nil, or_false] at hrule
      rcases hrule with rfl | rfl
      · obtain ⟨-, p, rfl, hfirst⟩ := buildsAll_single_iff.mp hrow
        obtain ⟨tree, rfl, hreads⟩ := hitem used p o' (by omega) hfirst
        obtain ⟨t, ts, rfl, ht⟩ := hopens used _ o' hfirst
        refine ⟨tree.map fun a => [a], ?_, ?_⟩
        · cases tree with
          | none => rfl
          | some a => exact hlist.phraseOf_one a
        · intro rest errors hrest
          obtain ⟨a, new, hrun, rfl⟩ := hreads rest errors hrest
          refine ⟨[a], new, rest, ?_, ?_, le_rfl⟩
          · have hcheck : check [.rightParen] ⟨t :: ts ++ rest, errors⟩
                = .ok false ⟨t :: ts ++ rest, errors⟩ := by
              simp [check_eq, ht]
            rw [inParentheses, bind_eq_of_ok hcheck]
            exact bind_eq_of_ok hrun
          · cases new <;> rfl
      · simp only [buildsAll_category_iff, buildsAll_terminal_iff, buildsAll_single_iff] at hrow
        obtain ⟨first, _, p, _, o₁, rfl, rfl, hfirst, comma, second, _, hkind, rfl, rfl, -, -,
          q, rfl, hsecond⟩ := hrow
        rw [List.length_append, List.length_cons] at hsize
        obtain ⟨items, rfl, hitems⟩ := ih first.length (by omega) first p o₁ rfl (by omega) hfirst
        obtain ⟨tree, rfl, hreads⟩ := hitem second q o' (by omega) hsecond
        refine ⟨items.bind fun found => tree.map fun a => found ++ [a], ?_, ?_⟩
        · cases items with
          | none => rfl
          | some found =>
              cases tree with
              | none => rfl
              | some a => exact hlist.phraseOf_more found comma a
        · rw [foundOf_append]
          refine hitems.round (rounds_collectSeparated hkind hreads) (by simp) fun rest _ => ?_
          exact hcomma comma _ hkind

/-- A list that may be empty is read up to the closing parenthesis. -/
theorem reads_inParentheses
    {outer : Category}
    {none : Meaning}
    (follow : List Token → Prop)
    (hlist : ListOf c one more item form formAll)
    (houter : rules.filter (·.category == outer) =
      [⟨outer, none, []⟩, ⟨outer, .same, [.category c]⟩])
    (hnone : phraseOf none [] = some (formAll []))
    (hitem : ∀ used phrase o, used.length ≤ n → Builds item used phrase o →
      ReadsAs parser form used phrase follow)
    (hopens : ∀ used phrase o, Builds item used phrase o →
      ∃ t ts, used = t :: ts ∧ t.kind ≠ .rightParen)
    (hfollow : ∀ t ts, t.kind = .comma ∨ t.kind = .rightParen → follow (t :: ts))
    {used : List Token}
    {phrase : Option Phrase}
    {o : Bool}
    (hn : used.length ≤ n)
    (hbuilt : Builds (.category outer) used phrase o) :
    ∃ items : Option (List α), phrase = items.map formAll
      ∧ Reads (inParentheses excess parser) used (items.bind limited) (Next .rightParen) := by
  obtain ⟨rule, hrule, ps, o', hrow, rfl, rfl⟩ := hbuilt.cases houter
  simp only [List.mem_cons, List.not_mem_nil, or_false] at hrule
  rcases hrule with rfl | rfl
  · obtain ⟨rfl, rfl, rfl⟩ := buildsAll_nil.mp hrow
    refine ⟨some [], hnone, ?_⟩
    rintro _ errors ⟨t, ts, rfl, ht⟩
    refine ⟨[], [], ?_, rfl⟩
    have hcheck : check [.rightParen] ⟨t :: ts, errors⟩ = .ok true ⟨t :: ts, errors⟩ := by
      simp [check_eq, ht]
    rw [inParentheses, List.nil_append, bind_eq_of_ok hcheck]
    rfl
  · obtain ⟨-, p, rfl, hinner⟩ := buildsAll_single_iff.mp hrow
    obtain ⟨items, rfl, henters⟩ := enters_inParentheses excess hlist hitem hopens
      (fun t ts ht => hfollow t ts (.inl ht)) used.length used p o' rfl hn hinner
    refine ⟨items, by cases items <;> rfl, ?_⟩
    have htree : (foundOf items).map List.reverse = items.bind limited := by
      simp [foundOf]
    rw [← htree]
    refine henters.reads List.reverse ?_ ?_
    · rintro _ ⟨t, ts, rfl, ht⟩
      exact hfollow t ts (.inr ht)
    · intro found bound rest errors hrest _
      cases bound with
      | nil => rfl
      | cons t bound =>
          rw [collectSeparated, bind_eq_of_ok (accept_stops (hrest.stops (by decide)))]
          rfl

end Lists

section Repetitions

/-- A category derives its items one after the other. -/
structure SequenceOf
    (c : Category)
    (none more : Meaning)
    (item : Category)
    (form : α → Phrase)
    (formAll : List α → Phrase) : Prop where
  rules_eq : rules.filter (·.category == c) =
    [⟨c, none, []⟩, ⟨c, more, [.category c, .category item]⟩]
  phraseOf_none : phraseOf none [] = some (formAll [])
  phraseOf_more (found : List α) (a : α) :
    phraseOf more [formAll found, form a] = some (formAll (found ++ [a]))

variable {n : Nat} {c inner : Category} {none more : Meaning}
variable {form : α → Phrase} {formAll : List α → Phrase}
variable {item : Parser (Option α)} {closing kinds : List TokenKind}

/-- A parser that can drop an item reads a text and does not drop it. -/
def ReadsItem
    (item : Parser (Option α))
    (used : List Token)
    (tree : Option α)
    (follow : List Token → Prop) : Prop :=
  ∀ rest errors, follow rest → ∃ a new,
    item ⟨used ++ rest, errors⟩ = .ok (some a) ⟨rest, new ++ errors⟩ ∧ tree = clean a new

/-- One round of a sequence takes an item that does not close it. -/
theorem rounds_collectUpTo
    {t : Token}
    {second : List Token}
    {tree : Option α}
    {follow : List Token → Prop}
    (ht : t.kind ∉ closing)
    (hitem : ReadsItem item (t :: second) tree follow) :
    Rounds (collectUpTo closing item) (t :: second) (fun found => tree.map fun a => a :: found)
      follow := by
  intro found t' bound rest errors hrest
  obtain ⟨a, new, hrun, rfl⟩ := hitem rest errors hrest
  have hend : atEnd ⟨t :: second ++ rest, errors⟩ = .ok false ⟨t :: second ++ rest, errors⟩ := rfl
  have hcheck : check closing ⟨t :: second ++ rest, errors⟩
      = .ok false ⟨t :: second ++ rest, errors⟩ := by
    simp [check_eq, ht]
  refine ⟨a :: found, new, ?_, by cases new <;> rfl⟩
  rw [collectUpTo, bind_eq_of_ok hend, bind_eq_of_ok hcheck]
  exact bind_eq_of_ok hrun

/-- The items of a sequence are rounds of the loop that collects them. -/
theorem enters_upTo
    (hsequence : SequenceOf c none more inner form formAll)
    (hkinds : inner.openings? = some kinds)
    (hclosing : ∀ k ∈ kinds, k ∉ .elseWord :: closing)
    (hitem : ∀ used phrase o, used.length ≤ n → Builds (.category inner) used phrase o →
      ∃ tree : Option α, phrase = tree.map form ∧ ReadsItem item used tree (Stops [.elseWord]))
    (size : Nat) :
    ∀ used phrase o, used.length = size → size ≤ n → Builds (.category c) used phrase o →
      ∃ items : Option (List α), phrase = items.map formAll
        ∧ Enters (upTo closing item) (collectUpTo closing item) used (items.map List.reverse)
          (Stops [.elseWord]) := by
  induction size using Nat.strongRecOn with
  | ind size ih =>
      intro used phrase o hsize hn hbuilt
      obtain ⟨rule, hrule, ps, o', hrow, rfl, rfl⟩ := hbuilt.cases hsequence.rules_eq
      simp only [List.mem_cons, List.not_mem_nil, or_false] at hrule
      rcases hrule with rfl | rfl
      · obtain ⟨rfl, rfl, rfl⟩ := buildsAll_nil.mp hrow
        refine ⟨some [], hsequence.phraseOf_none, fun rest errors _ => ?_⟩
        exact ⟨[], [], rest, rfl, rfl, le_rfl⟩
      · simp only [buildsAll_category_iff, buildsAll_nil] at hrow
        obtain ⟨first, _, p, _, o₁, rfl, rfl, hfirst, second, _, q, _, o₂, rfl, rfl, hsecond,
          rfl, rfl, rfl⟩ := hrow
        rw [List.append_nil] at hsize ⊢
        rw [List.length_append] at hsize
        obtain ⟨t, ts, rfl, ht⟩ := hsecond.opens hkinds
        rw [List.length_cons] at hsize
        obtain ⟨items, rfl, hitems⟩ := ih first.length (by omega) first p o₁ rfl (by omega) hfirst
        obtain ⟨tree, rfl, hreads⟩ := hitem (t :: ts) q o' (by simp; omega) hsecond
        have hother := hclosing _ ht
        rw [List.mem_cons, not_or] at hother
        refine ⟨items.bind fun found => tree.map fun a => found ++ [a], ?_, ?_⟩
        · cases items with
          | none => rfl
          | some found =>
              cases tree with
              | none => rfl
              | some a => exact hsequence.phraseOf_more found a
        · have hround := hitems.round (rounds_collectUpTo hother.2 hreads) (by simp)
            fun rest _ => stops_cons.mpr (by simpa using hother.1)
          have htree : (items.bind fun found => tree.map fun a => found ++ [a]).map List.reverse
              = (items.map List.reverse).bind fun found => tree.map fun a => a :: found := by
            cases items with
            | none => rfl
            | some found => cases tree <;> simp
          rwa [htree]

/-- A sequence is read up to a closing token or the end. -/
theorem reads_upTo
    (closing : List TokenKind)
    (hsequence : SequenceOf c none more inner form formAll)
    (hkinds : inner.openings? = some kinds)
    (hclosing : ∀ k ∈ kinds, k ∉ .elseWord :: closing)
    (hitem : ∀ used phrase o, used.length ≤ n → Builds (.category inner) used phrase o →
      ∃ tree : Option α, phrase = tree.map form ∧ ReadsItem item used tree (Stops [.elseWord]))
    {used : List Token}
    {phrase : Option Phrase}
    {o : Bool}
    (hn : used.length ≤ n)
    (hbuilt : Builds (.category c) used phrase o) :
    ReadsAs (upTo closing item) formAll used phrase fun rest =>
      Stops [.elseWord] rest ∧ (rest = [] ∨ ∃ t ∈ rest.head?, t.kind ∈ closing) := by
  obtain ⟨items, hphrase, henters⟩ :=
    enters_upTo hsequence hkinds hclosing hitem used.length used phrase o rfl hn hbuilt
  refine ⟨items, hphrase, ?_⟩
  have htree : (items.map List.reverse).map List.reverse = items := by
    simp
  rw [← htree]
  refine henters.reads List.reverse (fun _ hrest => hrest.1) ?_
  rintro found bound rest errors ⟨-, hend⟩ _
  cases bound with
  | nil => rfl
  | cons t bound =>
      have hstop : (rest.isEmpty || (rest.head?.any fun t => closing.contains t.kind)) = true := by
        rcases hend with rfl | ⟨t, ht, hkind⟩
        · rfl
        · rw [Option.mem_def.mp ht]
          simp [hkind]
      have hended : atEnd ⟨rest, errors⟩ = .ok rest.isEmpty ⟨rest, errors⟩ := rfl
      rw [collectUpTo, bind_eq_of_ok hended, bind_eq_of_ok (check_eq _ _)]
      simp only [hstop, if_true]
      rfl

end Repetitions

section Expressions

/-- The end of an operation on operands of the given levels. -/
def Ends (levels : List OperatorLevel) (_ : Bool) (rest : List Token) : Prop :=
  Stops (continuations levels) rest

/-- The end of an expression; an equals sign would make it the target of an assignment. -/
def EndsExpression (_ : Bool) (rest : List Token) : Prop :=
  Stops (.equal :: continuations operatorLevels) rest

/-- One round of a chain takes an operator and its right operand. -/
theorem rounds_chainOnto
    {level : OperatorLevel}
    {operand : Parser Expr}
    {operator : Token}
    {second : List Token}
    {right : Option Expr}
    {follow : List Token → Prop}
    (hoperator : operator.kind ∈ level.operators)
    (hright : Reads operand second right follow) :
    Rounds (chainOnto level operand) (operator :: second)
      (fun left => right.map fun r => level.node left operator r) follow := by
  intro left t bound rest errors hrest
  obtain ⟨r, new, hrun, htree⟩ := hright rest errors hrest
  refine ⟨level.node left operator r, new, ?_, ?_⟩
  · rw [chainOnto, List.cons_append, bind_eq_of_ok (accept_cons hoperator)]
    exact bind_eq_of_ok hrun
  · rw [htree]
    cases new <;> rfl

/-- Operands joined by operators are read up to what is no operator of the levels. -/
theorem reads_joined
    {n : Nat}
    {operand : Parser Expr}
    (hoperand : ReadsUpTo n operand .unary .expr (Ends []))
    {levels : List OperatorLevel}
    {c : Category}
    (hladder : Ladder levels c) :
    ReadsUpTo n (joined levels operand) c .expr (Ends levels) := by
  induction hladder with
  | bottom => exact hoperand
  | @level level levels c tighter m hlevel hother _ ih =>
      -- by induction on the length, since the first operand may be an operation of the same level
      have henters : ∀ (size : Nat) (used : List Token) (phrase : Option Phrase) (o : Bool),
          used.length = size → size ≤ n → Builds (.category c) used phrase o →
            ∃ tree : Option Expr, phrase = tree.map .expr
              ∧ Enters (joined (level :: levels) operand) (chainOnto level (joined levels operand))
                used tree (Stops (continuations levels)) := by
        intro size
        induction size using Nat.strongRecOn with
        | ind size ihsize =>
            intro used phrase o hsize hn hbuilt
            rcases (builds_level_iff hlevel).mp hbuilt with htight | hoperation
            · obtain ⟨tree, hphrase, hreads⟩ := ih used phrase o (by omega) htight
              exact ⟨tree, hphrase, enters_bounded hreads⟩
            · obtain ⟨first, second, operator, p, q, o', rfl, hkind, hfirst, hsecond, rfl⟩ :=
                hoperation
              rw [List.length_append, List.length_cons] at hsize
              obtain ⟨left, rfl, hleft⟩ :=
                ihsize first.length (by omega) first p o' rfl (by omega) hfirst
              obtain ⟨right, rfl, hright⟩ := ih second q o (by omega) hsecond
              refine ⟨left.bind fun l => right.map fun r => level.node l operator r, ?_, ?_⟩
              · cases left with
                | none => rfl
                | some l =>
                    cases right with
                    | none => rfl
                    | some r => exact hlevel.phraseOf_eq l operator r
              · refine hleft.round (rounds_chainOnto hkind hright) (by simp) fun rest _ => ?_
                rw [List.cons_append, stops_cons]
                exact hother _ hkind
      intro used phrase o hn hbuilt
      obtain ⟨tree, hphrase, henter⟩ := henters used.length used phrase o rfl hn hbuilt
      refine ⟨tree, hphrase, ?_⟩
      have htree : tree.map id = tree := by simp
      rw [← htree]
      refine henter.reads id ?_ ?_
      · refine fun rest hrest => hrest.mono fun k hk => ?_
        rw [continuations_cons]
        exact List.mem_append_right _ hk
      · intro left bound rest errors hrest _
        cases bound with
        | nil => rfl
        | cons t bound =>
            have hstops : Stops level.operators rest := by
              refine hrest.mono fun k hk => ?_
              rw [continuations_cons]
              exact List.mem_append_left _ hk
            rw [chainOnto, bind_eq_of_ok (accept_stops hstops)]
            rfl

variable {n : Nat} {inner : Parser Expr}
variable (hinner : ReadsUpTo n inner .expression .expr EndsExpression)

/-- A primary expression is chosen by the token that it starts with. -/
theorem reads_primary_of
    {parser : Parser Expr}
    {t : Token}
    {second : List Token}
    {tree : Option Expr}
    {follow : List Token → Prop}
    (hchoice : ∀ s, peek s = .ok (some t) s → primary inner s = (do advance; parser) s)
    (h : Reads parser second tree follow) :
    Reads (primary inner) (t :: second) tree follow := by
  intro rest errors hrest
  obtain ⟨a, new, hrun, htree⟩ := h rest errors hrest
  have hadvance : advance ⟨t :: second ++ rest, errors⟩ = .ok () ⟨second ++ rest, errors⟩ := rfl
  exact ⟨a, new, by rw [hchoice _ rfl, bind_eq_of_ok hadvance, hrun], htree⟩

/-- A primary expression of a single token. -/
theorem reads_primary_token
    {kind : TokenKind}
    {m : Meaning}
    (tree : Token → Expr)
    {used : List Token}
    {ps : List (Option Phrase)}
    {o : Bool}
    {follow : List Token → Prop}
    (hrow : BuildsAll false [.terminal kind] used ps o)
    (hphrase : ∀ t : Token, phraseOf m [.token t] = some (.expr (tree t)))
    (hchoice : ∀ t s, t.kind = kind → peek s = .ok (some t) s →
      primary inner s = (do advance; pure (tree t)) s) :
    ReadsAs (primary inner) .expr used ((allPresent ps).bind (phraseOf m)) follow := by
  simp only [buildsAll_terminal_iff, buildsAll_nil] at hrow
  obtain ⟨t, _, _, hkind, rfl, rfl, -, rfl, rfl, rfl⟩ := hrow
  exact ⟨some (tree t), hphrase t, reads_primary_of (hchoice t · hkind) (reads_pure _)⟩

include hinner in
/-- All expressions that are no more than an operand are read. -/
theorem reads_primary : ReadsUpTo (n + 1) (primary inner) .primary .expr fun _ _ => True := by
  intro used phrase o hn hbuilt
  obtain ⟨rule, hrule, ps, o', hrow, rfl, rfl⟩ :=
    hbuilt.cases (l := [_, _, _, _, _, _, _, _, _]) rfl
  simp only [List.mem_cons, List.not_mem_nil, or_false] at hrule
  rcases hrule with rfl | rfl | rfl | rfl | rfl | rfl | rfl | rfl | rfl
  case inl | inr.inl | inr.inr.inl | inr.inr.inr.inl | inr.inr.inr.inr.inl =>
    refine reads_primary_token (fun t => .literal (constantOf t)) hrow (fun _ => rfl) ?_
    intro t s hkind hpeek
    rw [primary, bind_eq_of_ok hpeek]
    simp only [hkind, constantOf, Token.literal]
  case inr.inr.inr.inr.inr.inl =>
    refine reads_primary_token (fun t => .this t .unresolved) hrow (fun _ => rfl) ?_
    intro t s hkind hpeek
    rw [primary, bind_eq_of_ok hpeek]
    simp only [hkind]
  case inr.inr.inr.inr.inr.inr.inl =>
    simp only [buildsAll_terminal_iff, buildsAll_nil] at hrow
    obtain ⟨t, _, _, hkind, rfl, rfl, -, dot, _, _, hdot, rfl, rfl, -, method, _, _, hmethod, rfl,
      rfl, -, rfl, rfl, rfl⟩ := hrow
    have hchoice : ∀ s, peek s = .ok (some t) s → primary inner s = (do
        advance
        let _ ← expect .dot .superDot
        let method ← expect .identifier .superMethod
        pure (Expr.super t method .unresolved)) s := by
      intro s hpeek
      rw [primary, bind_eq_of_ok hpeek]
      simp only [hkind]
    exact ⟨some (.super t method .unresolved), rfl,
      reads_primary_of hchoice (reads_expect hdot (reads_expect hmethod (reads_pure _)))⟩
  case inr.inr.inr.inr.inr.inr.inr.inl =>
    refine reads_primary_token (fun t => .read ⟨t, .unresolved⟩) hrow (fun _ => rfl) ?_
    intro t s hkind hpeek
    rw [primary, bind_eq_of_ok hpeek]
    simp only [hkind]
  case inr.inr.inr.inr.inr.inr.inr.inr =>
    simp only [buildsAll_terminal_iff, buildsAll_category_iff, buildsAll_nil] at hrow
    obtain ⟨t, _, _, hkind, rfl, rfl, -, second, _, p, _, o₁, rfl, rfl, hsecond, closing, _, _,
      hclosing, rfl, rfl, -, rfl, rfl, rfl⟩ := hrow
    obtain ⟨tree, rfl, hreads⟩ := hinner second p o₁ (by simp at hn; omega) hsecond
    have hchoice : ∀ s, peek s = .ok (some t) s → primary inner s = (do
        advance
        let e ← inner
        let _ ← expect .rightParen .groupingEnd
        pure (Expr.grouping e)) s := by
      intro s hpeek
      rw [primary, bind_eq_of_ok hpeek]
      simp only [hkind]
    refine ⟨tree.bind fun e => some (.grouping e), by cases tree <;> rfl,
      reads_primary_of hchoice (reads_bind hreads (fun e => ?_) fun rest _ => ?_)⟩
    · exact reads_expect hclosing (reads_pure _)
    · exact stops_cons.mpr (by rw [hclosing]; decide)

/-- The arguments of a call are a list of expressions. -/
theorem listOf_arguments :
    ListOf .arguments .oneArgument .moreArguments (.category .expression) .expr .exprs :=
  ⟨rfl, fun _ => rfl, fun _ _ _ => rfl⟩

include hinner in
/-- Arguments are read up to their closing parenthesis, if there are not too many. -/
theorem reads_arguments
    {used : List Token}
    {phrase : Option Phrase}
    {o : Bool}
    (hn : used.length ≤ n)
    (hbuilt : Builds (.category .argumentList) used phrase o) :
    ∃ arguments : Option (List Expr), phrase = arguments.map .exprs
      ∧ Reads (inParentheses .tooManyArguments inner) used (arguments.bind limited)
        (Next .rightParen) := by
  refine reads_inParentheses (EndsExpression false) listOf_arguments rfl rfl
    hinner ?_ ?_ hn hbuilt
  · intro used phrase o h
    obtain ⟨t, ts, rfl, ht⟩ := h.opens rfl
    exact ⟨t, ts, rfl, by rintro hkind; rw [hkind] at ht; exact absurd ht (by decide)⟩
  · rintro t ts (ht | ht) <;> exact stops_cons.mpr (by rw [ht]; decide)

/-- Arguments in parentheses are a round of the loop behind a primary expression. -/
theorem rounds_postfixOnto_call
    {opener closing : Token}
    {second : List Token}
    {arguments : Option (List Expr)}
    {follow : List Token → Prop}
    (hopener : opener.kind = .leftParen)
    (hclosing : closing.kind = .rightParen)
    (harguments : Reads (inParentheses .tooManyArguments inner) second arguments
      (Next .rightParen)) :
    Rounds (postfixOnto inner) (opener :: (second ++ [closing]))
      (fun object => arguments.bind fun es => some (.call object closing es)) follow := by
  intro object t bound rest errors _
  obtain ⟨es, new, hrun, htree⟩ :=
    harguments (closing :: rest) errors ⟨closing, rest, rfl, hclosing⟩
  refine ⟨.call object closing es, new, ?_, ?_⟩
  · have hahead :
        opener :: (second ++ [closing]) ++ rest = opener :: (second ++ closing :: rest) := by
      simp
    have hexpect : expect .rightParen .argumentListEnd ⟨closing :: rest, new ++ errors⟩
        = .ok closing ⟨rest, new ++ errors⟩ := by
      rw [expect, bind_eq_of_ok (accept_cons (by simp [hclosing]))]
      rfl
    rw [postfixOnto, hahead, bind_eq_of_ok (accept_cons (by simp [hopener]))]
    simp only [hopener, beq_self_eq_true, if_true]
    rw [bind_eq_of_ok hrun, bind_eq_of_ok hexpect]
  · rw [htree]
    cases new <;> rfl

/-- A property is a round of the loop behind a primary expression. -/
theorem rounds_postfixOnto_get
    {opener name : Token}
    {follow : List Token → Prop}
    (hopener : opener.kind = .dot)
    (hname : name.kind = .identifier) :
    Rounds (postfixOnto inner) [opener, name] (fun object => some (.get object name)) follow := by
  intro object t bound rest errors _
  refine ⟨.get object name, [], ?_, rfl⟩
  have hexpect : expect .identifier .propertyName ⟨name :: rest, errors⟩
      = .ok name ⟨rest, errors⟩ := by
    rw [expect, bind_eq_of_ok (accept_cons (by simp [hname]))]
    rfl
  have hne : (TokenKind.dot == TokenKind.leftParen) = false := by decide
  rw [postfixOnto, List.cons_append, bind_eq_of_ok (accept_cons (by simp [hopener]))]
  simp only [hopener, hne, Bool.false_eq_true, if_false]
  exact bind_eq_of_ok hexpect

include hinner in
theorem enters_postfixed (size : Nat) :
    ∀ used phrase o, used.length = size → size ≤ n + 1 → Builds (.category .call) used phrase o →
      ∃ tree : Option Expr, phrase = tree.map .expr
        ∧ Enters (postfixed inner) (postfixOnto inner) used tree fun _ => True := by
  induction size using Nat.strongRecOn with
  | ind size ih =>
      intro used phrase o hsize hn hbuilt
      obtain ⟨rule, hrule, ps, o', hrow, rfl, rfl⟩ := hbuilt.cases (l := [_, _, _]) rfl
      simp only [List.mem_cons, List.not_mem_nil, or_false] at hrule
      rcases hrule with rfl | rfl | rfl
      · obtain ⟨-, p, rfl, hprimary⟩ := buildsAll_single_iff.mp hrow
        obtain ⟨tree, rfl, hreads⟩ := reads_primary hinner used p o' (by omega) hprimary
        exact ⟨tree, by cases tree <;> rfl, enters_bounded hreads⟩
      · simp only [buildsAll_category_iff, buildsAll_terminal_iff, buildsAll_nil] at hrow
        obtain ⟨first, _, p, _, o₁, rfl, rfl, hfirst, opener, _, _, hopener, rfl, rfl, -,
          second, _, q, _, o₂, rfl, rfl, hsecond, closing, _, _, hclosing, rfl, rfl, -,
          rfl, rfl, rfl⟩ := hrow
        simp only [List.length_append, List.length_cons, List.length_nil] at hsize
        obtain ⟨object, rfl, hobject⟩ := ih first.length (by omega) first p o₁ rfl (by omega) hfirst
        obtain ⟨arguments, rfl, harguments⟩ := reads_arguments hinner (by omega) hsecond
        refine ⟨_, ?_, hobject.round (rounds_postfixOnto_call hopener hclosing harguments)
          (by simp) fun _ _ => trivial⟩
        cases object with
        | none => rfl
        | some object =>
            cases arguments with
            | none => rfl
            | some es =>
                simp only [allPresent, Option.map_some, Option.bind_some, phraseOf_call]
                cases limited es <;> rfl
      · simp only [buildsAll_category_iff, buildsAll_terminal_iff, buildsAll_nil] at hrow
        obtain ⟨first, _, p, _, o₁, rfl, rfl, hfirst, opener, _, _, hopener, rfl, rfl, -,
          name, _, _, hname, rfl, rfl, -, rfl, rfl, rfl⟩ := hrow
        simp only [List.length_append, List.length_cons, List.length_nil] at hsize
        obtain ⟨object, rfl, hobject⟩ := ih first.length (by omega) first p o₁ rfl (by omega) hfirst
        refine ⟨_, ?_, hobject.round (rounds_postfixOnto_get hopener hname) (by simp)
          fun _ _ => trivial⟩
        cases object <;> rfl

include hinner in
/-- A chain of calls and properties is read up to what does not continue it. -/
theorem reads_postfixed : ReadsUpTo (n + 1) (postfixed inner) .call .expr (Ends []) := by
  intro used phrase o hn hbuilt
  obtain ⟨tree, hphrase, henters⟩ :=
    enters_postfixed hinner used.length used phrase o rfl hn hbuilt
  refine ⟨tree, hphrase, ?_⟩
  have htree : tree.map id = tree := by simp
  rw [← htree]
  refine henters.reads id (fun _ _ => trivial) ?_
  intro object bound rest errors hrest _
  cases bound with
  | nil => rfl
  | cons t bound =>
      have hstops : Stops [.leftParen, .dot] rest := hrest
      rw [postfixOnto, bind_eq_of_ok (accept_stops hstops)]
      rfl

include hinner in
/-- A target with an assigned value is read; it is an error if it cannot be assigned. -/
theorem reads_assignment
    {operand : Parser Expr}
    (hoperand : ReadsUpTo (n + 1) operand .unary .expr (Ends [])) :
    ReadsUpTo (n + 1) (assignment operand inner) .expression .expr EndsExpression := by
  have hjoined := reads_joined hoperand ladder_operatorLevels
  intro used phrase o hn hbuilt
  have hbuilt := builds_expression_iff.mp hbuilt
  obtain ⟨rule, hrule, ps, o', hrow, rfl, rfl⟩ := hbuilt.cases (l := [_, _]) rfl
  simp only [List.mem_cons, List.not_mem_nil, or_false] at hrule
  rcases hrule with rfl | rfl
  · simp only [buildsAll_category_iff, buildsAll_terminal_iff, buildsAll_single_iff] at hrow
    obtain ⟨first, _, p, _, o₁, rfl, rfl, hfirst, equals, second, _, hequals, rfl, rfl, -, -,
      q, rfl, hsecond⟩ := hrow
    simp only [List.length_append, List.length_cons] at hn
    obtain ⟨target, rfl, htarget⟩ := hjoined first p o₁ (by omega) hfirst
    obtain ⟨value, rfl, hvalue⟩ :=
      hinner second q o' (by omega) (builds_expression_iff.mpr hsecond)
    refine ⟨target.bind fun t => value.bind fun v => t.assignment? v, ?_,
      reads_bind htarget (fun t => reads_accept (by simp [hequals]) ?_) fun rest _ => ?_⟩
    · cases target with
      | none => rfl
      | some t =>
          cases value with
          | none => rfl
          | some v => rfl
    · rw [← List.append_nil second]
      refine reads_bind hvalue (fun v => ?_) fun rest hrest => hrest
      cases t.assignment? v with
      | some result => exact reads_pure result
      | none => exact fun rest errors _ => ⟨t, [⟨.invalidTarget, some equals⟩], rfl, rfl⟩
    · exact stops_cons.mpr (by rw [hequals]; decide)
  · obtain ⟨-, p, rfl, hor⟩ := buildsAll_single_iff.mp hrow
    obtain ⟨tree, rfl, hreads⟩ := hjoined used p o' hn hor
    refine ⟨tree.bind fun e => some e, by cases tree <;> rfl, ?_⟩
    have hmore : ∀ k ∈ continuations operatorLevels, k ∈ .equal :: continuations operatorLevels :=
      fun k hk => List.mem_cons_of_mem _ hk
    rw [← List.append_nil used]
    refine reads_bind hreads (fun e => reads_accept_none (reads_pure e) fun rest hrest => ?_)
      fun rest hrest => hrest.mono hmore
    exact hrest.mono (by simp)

end Expressions

/-- The texts of expressions are not empty. -/
theorem readsUpTo_zero
    {parser : Parser α}
    {c : Category}
    {form : α → Phrase}
    {follow : Bool → List Token → Prop}
    {kinds : List TokenKind}
    (hkinds : c.openings? = some kinds) :
    ReadsUpTo 0 parser c form follow := by
  intro used phrase o hn hbuilt
  obtain ⟨t, ts, rfl, -⟩ := hbuilt.opens hkinds
  simp at hn

/-- An operand that starts with an operator, or a chain of calls and properties. -/
theorem reads_unary_succ
    {n allowance : Nat}
    (hoperand : ReadsUpTo n (unary allowance) .unary .expr (Ends []))
    (hinner : ReadsUpTo n (expression allowance) .expression .expr EndsExpression) :
    ReadsUpTo (n + 1) (unary (allowance + 1)) .unary .expr (Ends []) := by
  intro used phrase o hn hbuilt
  obtain ⟨rule, hrule, ps, o', hrow, rfl, rfl⟩ := hbuilt.cases (l := [_, _, _]) rfl
  simp only [List.mem_cons, List.not_mem_nil, or_false] at hrule
  have hoperation : ∀ {kind : TokenKind}, kind ∈ [TokenKind.bang, TokenKind.minus] →
      BuildsAll false [.terminal kind, .category .unary] used ps o' →
      ReadsAs (unary (allowance + 1)) .expr used ((allPresent ps).bind (phraseOf .unary))
        (Ends [] o') := by
    intro kind hkind hrow
    simp only [buildsAll_terminal_iff, buildsAll_single_iff] at hrow
    obtain ⟨operator, second, _, rfl, rfl, rfl, -, -, p, rfl, hsecond⟩ := hrow
    rw [List.length_cons] at hn
    obtain ⟨tree, rfl, hreads⟩ := hoperand second p o' (by omega) hsecond
    refine ⟨tree.map (.unary operator), by cases tree <;> rfl, ?_⟩
    rw [unary]
    exact reads_accept hkind (reads_map (Expr.unary operator) hreads)
  rcases hrule with rfl | rfl | rfl
  · exact hoperation (by decide) hrow
  · exact hoperation (by decide) hrow
  · obtain ⟨-, p, rfl, hcall⟩ := buildsAll_single_iff.mp hrow
    obtain ⟨tree, rfl, hreads⟩ := reads_postfixed hinner used p o' hn hcall
    refine ⟨tree, by cases tree <;> rfl, ?_⟩
    rw [unary]
    exact reads_accept_none hreads fun rest _ => hcall.stops rfl (by decide) rest

mutual

/-- With an allowance of twice the length of a text, the text does not nest too deeply. -/
theorem reads_expression :
    ∀ allowance n, 2 * n ≤ allowance →
      ReadsUpTo n (expression allowance) .expression .expr EndsExpression
  | _, 0, _ => readsUpTo_zero rfl
  | 0, n + 1, h => by omega
  | allowance + 1, n + 1, h =>
      reads_assignment (reads_expression allowance n (by omega))
        (reads_unary allowance (n + 1) (by omega))

/-- All unary expressions are read with enough allowance for their length. -/
theorem reads_unary :
    ∀ allowance n, 2 * n ≤ allowance + 1 →
      ReadsUpTo n (unary allowance) .unary .expr (Ends [])
  | _, 0, _ => readsUpTo_zero rfl
  | 0, n + 1, h => by omega
  | allowance + 1, n + 1, h =>
      reads_unary_succ (reads_unary allowance n (by omega))
        (reads_expression allowance n (by omega))

end

section Statements

/-- What can stand behind a statement: no `else`, if the statement could be continued by one. -/
def EndsStmt (isOpen : Bool) (rest : List Token) : Prop :=
  isOpen = true → Stops [.elseWord] rest

/-- A statement may end before whatever is no `else`. -/
theorem endsStmt_of_stops {isOpen : Bool} {rest : List Token} (h : Stops [.elseWord] rest) :
    EndsStmt isOpen rest :=
  fun _ => h

/-- A parser of declarations reads all of them that are not longer than this, and drops none. -/
def ReadsItemsUpTo (n : Nat) (item : Parser (Option Stmt)) : Prop :=
  ∀ used phrase isOpen, used.length ≤ n → Builds (.category .declaration) used phrase isOpen →
    ∃ tree : Option Stmt, phrase = tree.map .stmt ∧ ReadsItem item used tree (EndsStmt isOpen)

/-- A parser reads all texts of a category behind their first token, which it knows. -/
def ReadsBehind
    (n : Nat)
    (kind : TokenKind)
    (parser : Token → Parser Stmt)
    (c : Category) : Prop :=
  ∀ used phrase isOpen, used.length ≤ n → Builds (.category c) used phrase isOpen →
    ∃ word second, used = word :: second ∧ word.kind = kind
      ∧ ReadsAs (parser word) .stmt second phrase (EndsStmt isOpen)

/-- The declarations of a body are a sequence. -/
theorem sequenceOf_declarations :
    SequenceOf .declarations .noStatements .moreStatements .declaration .stmt .stmts :=
  ⟨rfl, rfl, fun _ _ => rfl⟩

/-- The methods of a class are a sequence. -/
theorem sequenceOf_methods :
    SequenceOf .methods .noMethods .moreMethods .routine .routine .routines :=
  ⟨rfl, rfl, fun _ _ => rfl⟩

/-- The parameters of a function are a list of names. -/
theorem listOf_parameters :
    ListOf .parameters .oneName .moreNames (.terminal .identifier) .token .names :=
  ⟨rfl, fun _ => rfl, fun _ _ _ => rfl⟩

/-- Parameters are read up to their closing parenthesis, if there are not too many. -/
theorem reads_parameters
    {used : List Token}
    {phrase : Option Phrase}
    {o : Bool}
    (hbuilt : Builds (.category .parameterList) used phrase o) :
    ∃ names : Option (List Token), phrase = names.map .names
      ∧ Reads parameters used (names.bind limited) (Next .rightParen) := by
  refine reads_inParentheses (fun _ => True) listOf_parameters rfl rfl ?_ ?_
    (fun _ _ _ => trivial) le_rfl hbuilt
  · intro used phrase o _ h
    obtain ⟨t, ht, rfl, rfl, rfl⟩ := builds_terminal.mp h
    exact ⟨some t, rfl, reads_expect_last ht⟩
  · intro used phrase o h
    obtain ⟨t, ht, rfl, -, -⟩ := builds_terminal.mp h
    exact ⟨t, [], rfl, by rw [ht]; decide⟩

variable {n : Nat}
variable {inner : Parser Expr} (hinner : ReadsUpTo n inner .expression .expr EndsExpression)
variable {branch : Parser Stmt} (hbranch : ReadsUpTo n branch .statement .stmt EndsStmt)
variable {item : Parser (Option Stmt)} (hitem : ReadsItemsUpTo n item)

include hitem in
/-- Declarations are read up to the token that closes them. -/
theorem reads_declarations
    (closing : List TokenKind)
    (hclosing : ∀ k ∈ declarationWords ++ statementWords ++ expressionOpenings,
      k ∉ .elseWord :: closing)
    {used : List Token}
    {phrase : Option Phrase}
    {o : Bool}
    (hn : used.length ≤ n)
    (hbuilt : Builds (.category .declarations) used phrase o) :
    ReadsAs (upTo closing item) .stmts used phrase fun rest =>
      Stops [.elseWord] rest ∧ (rest = [] ∨ ∃ t ∈ rest.head?, t.kind ∈ closing) := by
  refine reads_upTo closing sequenceOf_declarations rfl hclosing ?_ hn hbuilt
  intro used phrase o hn hbuilt
  obtain ⟨tree, hphrase, hreads⟩ := hitem used phrase o hn hbuilt
  exact ⟨tree, hphrase, fun rest errors hrest => hreads rest errors (endsStmt_of_stops hrest)⟩

include hitem in
/-- A body is read together with the brace that closes it. -/
theorem reads_blockBody
    {used : List Token}
    {phrase : Option Phrase}
    {o : Bool}
    {brace : Token}
    {follow : List Token → Prop}
    (hn : used.length ≤ n)
    (hbuilt : Builds (.category .declarations) used phrase o)
    (hbrace : brace.kind = .rightBrace) :
    ReadsAs (blockBody item) .stmts (used ++ [brace]) phrase follow := by
  obtain ⟨tree, rfl, hreads⟩ :=
    reads_declarations hitem [.rightBrace] (by decide) hn hbuilt
  refine ⟨tree.bind fun body => some body, by cases tree <;> rfl, ?_⟩
  refine reads_bind hreads (fun body => reads_expect hbrace (reads_pure body)) fun rest _ => ?_
  exact ⟨stops_cons.mpr (by rw [hbrace]; decide), .inr ⟨brace, rfl, by simp [hbrace]⟩⟩

include hitem in
/-- Functions and methods are read. -/
theorem reads_routine
    (sort : RoutineSort)
    {used : List Token}
    {phrase : Option Phrase}
    {o : Bool}
    {follow : List Token → Prop}
    (hn : used.length ≤ n + 1)
    (hbuilt : Builds (.category .routine) used phrase o) :
    ReadsAs (routine sort item) .routine used phrase follow := by
  obtain ⟨rule, hrule, ps, o', hrow, rfl, rfl⟩ := hbuilt.cases (l := [_]) rfl
  obtain rfl := List.mem_singleton.mp hrule
  obtain ⟨name, _, _, hname, rfl, rfl, -, hrow⟩ := buildsAll_terminal_iff.mp hrow
  obtain ⟨opening, _, _, hopening, rfl, rfl, -, hrow⟩ := buildsAll_terminal_iff.mp hrow
  obtain ⟨first, _, p, _, o₁, rfl, rfl, hfirst, hrow⟩ := buildsAll_category_iff.mp hrow
  obtain ⟨ending, _, _, hending, rfl, rfl, -, hrow⟩ := buildsAll_terminal_iff.mp hrow
  obtain ⟨brace, _, _, hbrace, rfl, rfl, -, hrow⟩ := buildsAll_terminal_iff.mp hrow
  obtain ⟨second, _, q, _, o₂, rfl, rfl, hsecond, hrow⟩ := buildsAll_category_iff.mp hrow
  obtain ⟨closing, _, _, hclosing, rfl, rfl, -, hrow⟩ := buildsAll_terminal_iff.mp hrow
  obtain ⟨rfl, rfl, rfl⟩ := buildsAll_nil.mp hrow
  simp only [List.length_append, List.length_cons, List.length_nil] at hn
  obtain ⟨names, rfl, hnames⟩ := reads_parameters hfirst
  obtain ⟨body, rfl, hbody⟩ : ReadsAs (blockBody item) .stmts (second ++ [closing]) q follow :=
    reads_blockBody hitem (by omega) hsecond hclosing
  refine ⟨(names.bind limited).bind fun ns => body.map fun b => ⟨name, ns, b⟩, ?_,
    reads_expect hname (reads_expect hopening (reads_bind hnames (fun ns => reads_expect hending
      (reads_expect hbrace (reads_map _ hbody))) fun rest _ => ⟨ending, _, rfl, hending⟩))⟩
  cases names with
  | none => rfl
  | some ns =>
      cases body with
      | none => cases hlimit : limited ns <;> simp [allPresent, hlimit]
      | some b =>
          simp only [allPresent, Option.map_some, Option.bind_some, phraseOf_routine]
          cases limited ns <;> rfl

/-- The superclass of a class is read, if there is one. -/
theorem reads_superclass
    {used : List Token}
    {phrase : Option Phrase}
    {o : Bool}
    (hbuilt : Builds (.category .parent) used phrase o) :
    ∃ name : Option Token, phrase = some (.parent name)
      ∧ Reads superclass used (some (name.map fun p => .read ⟨p, .unresolved⟩))
        (Next .leftBrace) := by
  obtain ⟨rule, hrule, ps, o', hrow, rfl, rfl⟩ := hbuilt.cases (l := [_, _]) rfl
  simp only [List.mem_cons, List.not_mem_nil, or_false] at hrule
  rcases hrule with rfl | rfl
  · obtain ⟨rfl, rfl, rfl⟩ := buildsAll_nil.mp hrow
    exact ⟨none, rfl, reads_accept_none (reads_pure none) fun rest hrest =>
      hrest.stops (by decide)⟩
  · simp only [buildsAll_terminal_iff, buildsAll_nil] at hrow
    obtain ⟨less, _, _, hless, rfl, rfl, -, name, _, _, hname, rfl, rfl, -, rfl, rfl, rfl⟩ := hrow
    exact ⟨some name, rfl, reads_accept (by simp [hless]) (reads_expect hname (reads_pure _))⟩

include hitem in
/-- The methods of a class are read up to the brace that closes it. -/
theorem reads_methods
    {used : List Token}
    {phrase : Option Phrase}
    {o : Bool}
    (hn : used.length ≤ n + 1)
    (hbuilt : Builds (.category .methods) used phrase o) :
    ReadsAs (upTo [.rightBrace] (some <$> routine .method item)) .routines used phrase
      (Next .rightBrace) := by
  have hroutine : ∀ used phrase o, used.length ≤ n + 1 → Builds (.category .routine) used phrase o →
      ∃ tree : Option FunctionDecl, phrase = tree.map .routine
        ∧ ReadsItem (some <$> routine .method item) used tree (Stops [.elseWord]) := by
    intro used phrase o hn hbuilt
    obtain ⟨tree, hphrase, hreads⟩ : ReadsAs (routine .method item) .routine used phrase
      (Stops [.elseWord]) := reads_routine hitem .method hn hbuilt
    refine ⟨tree, hphrase, fun rest errors hrest => ?_⟩
    obtain ⟨f, new, hrun, htree⟩ := hreads rest errors hrest
    exact ⟨f, new, bind_eq_of_ok hrun, htree⟩
  obtain ⟨tree, hphrase, hreads⟩ :=
    reads_upTo [.rightBrace] sequenceOf_methods rfl (by decide) hroutine hn hbuilt
  refine ⟨tree, hphrase, reads_mono hreads ?_⟩
  rintro _ ⟨t, ts, rfl, ht⟩
  exact ⟨stops_cons.mpr (by rw [ht]; decide), .inr ⟨t, rfl, by simp [ht]⟩⟩

include hitem in
/-- Classes are read behind their keyword. -/
theorem reads_classDeclaration :
    ReadsBehind (n + 1) .classWord (fun _ => classDeclaration item) .classDecl := by
  intro used phrase o hn hbuilt
  obtain ⟨rule, hrule, ps, o', hrow, rfl, rfl⟩ := hbuilt.cases (l := [_]) rfl
  obtain rfl := List.mem_singleton.mp hrule
  obtain ⟨word, _, _, hword, rfl, rfl, -, hrow⟩ := buildsAll_terminal_iff.mp hrow
  obtain ⟨name, _, _, hname, rfl, rfl, -, hrow⟩ := buildsAll_terminal_iff.mp hrow
  obtain ⟨first, _, p, _, o₁, rfl, rfl, hfirst, hrow⟩ := buildsAll_category_iff.mp hrow
  obtain ⟨opening, _, _, hopening, rfl, rfl, -, hrow⟩ := buildsAll_terminal_iff.mp hrow
  obtain ⟨second, _, q, _, o₂, rfl, rfl, hsecond, hrow⟩ := buildsAll_category_iff.mp hrow
  obtain ⟨closing, _, _, hclosing, rfl, rfl, -, hrow⟩ := buildsAll_terminal_iff.mp hrow
  obtain ⟨rfl, rfl, rfl⟩ := buildsAll_nil.mp hrow
  simp only [List.length_append, List.length_cons, List.length_nil] at hn
  obtain ⟨parent, rfl, hparent⟩ := reads_superclass hfirst
  obtain ⟨methods, rfl, hmethods⟩ := reads_methods hitem (by omega) hsecond
  refine ⟨word, _, rfl, hword, (some (parent.map fun p => .read ⟨p, .unresolved⟩)).bind
    fun superclass => methods.bind fun ms => some (.classDecl name superclass ms), ?_, ?_⟩
  · cases methods <;> rfl
  · refine reads_expect hname (reads_bind hparent (fun superclass => reads_expect hopening
      (reads_bind hmethods (fun ms => reads_expect hclosing (reads_pure _)) ?_)) ?_)
    · exact fun rest _ => ⟨closing, rest, rfl, hclosing⟩
    · exact fun rest _ => ⟨opening, _, rfl, hopening⟩

include hinner in
/-- The initializer of a variable is read, if there is one. -/
theorem reads_initializer
    {used : List Token}
    {phrase : Option Phrase}
    {o : Bool}
    (hn : used.length ≤ n + 1)
    (hbuilt : Builds (.category .initializer) used phrase o) :
    ReadsAs (initializer inner) .optionalExpr used phrase (Next .semicolon) := by
  obtain ⟨rule, hrule, ps, o', hrow, rfl, rfl⟩ := hbuilt.cases (l := [_, _]) rfl
  simp only [List.mem_cons, List.not_mem_nil, or_false] at hrule
  rcases hrule with rfl | rfl
  · obtain ⟨rfl, rfl, rfl⟩ := buildsAll_nil.mp hrow
    exact ⟨some none, rfl, reads_accept_none (reads_pure none) fun rest hrest =>
      hrest.stops (by decide)⟩
  · simp only [buildsAll_terminal_iff, buildsAll_single_iff] at hrow
    obtain ⟨equals, second, _, hequals, rfl, rfl, -, -, p, rfl, hsecond⟩ := hrow
    rw [List.length_cons] at hn
    obtain ⟨tree, rfl, hreads⟩ := hinner second p o' (by omega) hsecond
    refine ⟨tree.map some, by cases tree <;> rfl, reads_accept (by simp [hequals]) ?_⟩
    exact reads_map some (reads_mono hreads fun rest hrest => hrest.stops (by decide))

include hinner in
/-- An expression that may be absent is read up to the token that shows its absence. -/
theorem reads_unlessAt
    {closing : TokenKind}
    (hclosing : closing = .semicolon ∨ closing = .rightParen)
    {used : List Token}
    {phrase : Option Phrase}
    {o : Bool}
    (hn : used.length ≤ n)
    (hbuilt : Builds (.category .optionalExpression) used phrase o) :
    ReadsAs (unlessAt closing inner) .optionalExpr used phrase (Next closing) := by
  obtain ⟨rule, hrule, ps, o', hrow, rfl, rfl⟩ := hbuilt.cases (l := [_, _]) rfl
  simp only [List.mem_cons, List.not_mem_nil, or_false] at hrule
  rcases hrule with rfl | rfl
  · obtain ⟨rfl, rfl, rfl⟩ := buildsAll_nil.mp hrow
    refine ⟨some none, rfl, reads_check true (reads_pure none) ?_⟩
    rintro _ ⟨t, ts, rfl, ht⟩
    simp [ht]
  · obtain ⟨-, p, rfl, hsecond⟩ := buildsAll_single_iff.mp hrow
    obtain ⟨tree, rfl, hreads⟩ := hinner used p o' hn hsecond
    obtain ⟨t, ts, rfl, ht⟩ := hsecond.opens rfl
    refine ⟨tree.map some, by cases tree <;> rfl, reads_check false ?_ fun rest _ => ?_⟩
    · refine reads_map some (reads_mono hreads fun rest hrest => hrest.stops ?_)
      rcases hclosing with rfl | rfl <;> decide
    · have hne : t.kind ≠ closing := by
        rintro rfl
        rcases hclosing with h | h <;> rw [h] at ht <;> exact absurd ht (by decide)
      simp [hne]

include hinner in
/-- Variables are read behind their keyword. -/
theorem reads_variableDeclaration :
    ReadsBehind (n + 1) .varWord (fun _ => variableDeclaration inner) .varDecl := by
  intro used phrase o hn hbuilt
  obtain ⟨rule, hrule, ps, o', hrow, rfl, rfl⟩ := hbuilt.cases (l := [_]) rfl
  obtain rfl := List.mem_singleton.mp hrule
  simp only [buildsAll_category_iff, buildsAll_terminal_iff, buildsAll_nil] at hrow
  obtain ⟨word, _, _, hword, rfl, rfl, -, name, _, _, hname, rfl, rfl, -,
    first, _, p, _, o₁, rfl, rfl, hfirst, closing, _, _, hclosing, rfl, rfl, -,
    rfl, rfl, rfl⟩ := hrow
  simp only [List.length_append, List.length_cons, List.length_nil] at hn
  obtain ⟨value, rfl, hvalue⟩ := reads_initializer hinner (by omega) hfirst
  refine ⟨word, _, rfl, hword, value.bind fun v => some (.varDecl name v), ?_, ?_⟩
  · cases value <;> rfl
  · exact reads_expect hname (reads_bind hvalue (fun v => reads_expect hclosing (reads_pure _))
      fun rest _ => ⟨closing, rest, rfl, hclosing⟩)

include hinner in
/-- Constants are read behind their keyword. -/
theorem reads_constantDeclaration :
    ReadsBehind (n + 1) .constWord (fun _ => constantDeclaration inner) .constDecl := by
  intro used phrase o hn hbuilt
  obtain ⟨rule, hrule, ps, o', hrow, rfl, rfl⟩ := hbuilt.cases (l := [_]) rfl
  obtain rfl := List.mem_singleton.mp hrule
  simp only [buildsAll_category_iff, buildsAll_terminal_iff, buildsAll_nil] at hrow
  obtain ⟨word, _, _, hword, rfl, rfl, -, name, _, _, hname, rfl, rfl, -,
    first, _, p, _, o₁, rfl, rfl, hfirst, closing, _, _, hclosing, rfl, rfl, -,
    rfl, rfl, rfl⟩ := hrow
  simp only [List.length_append, List.length_cons, List.length_nil] at hn
  obtain ⟨value, rfl, hvalue⟩ := reads_initializer hinner (by omega) hfirst
  refine ⟨word, _, rfl, hword, value.bind fun v => some (.constDecl name v), ?_, ?_⟩
  · cases value <;> rfl
  · exact reads_expect hname (reads_bind hvalue (fun v => reads_expect hclosing (reads_pure _))
      fun rest _ => ⟨closing, rest, rfl, hclosing⟩)

include hinner in
/-- Expressions are read as statements together with their semicolon. -/
theorem reads_expressionStatement
    {used : List Token}
    {phrase : Option Phrase}
    {o : Bool}
    {follow : List Token → Prop}
    (hn : used.length ≤ n + 1)
    (hbuilt : Builds (.category .exprStmt) used phrase o) :
    ReadsAs (expressionStatement inner) .stmt used phrase follow := by
  obtain ⟨rule, hrule, ps, o', hrow, rfl, rfl⟩ := hbuilt.cases (l := [_]) rfl
  obtain rfl := List.mem_singleton.mp hrule
  simp only [buildsAll_category_iff, buildsAll_terminal_iff, buildsAll_nil] at hrow
  obtain ⟨first, _, p, _, o₁, rfl, rfl, hfirst, closing, _, _, hclosing, rfl, rfl, -,
    rfl, rfl, rfl⟩ := hrow
  simp only [List.length_append, List.length_cons, List.length_nil] at hn
  obtain ⟨tree, rfl, hreads⟩ := hinner first p o₁ (by omega) hfirst
  refine ⟨tree.bind fun e => some (.exprStmt e), by cases tree <;> rfl, ?_⟩
  exact reads_bind hreads (fun e => reads_expect hclosing (reads_pure _))
    fun rest _ => stops_cons.mpr (by rw [hclosing]; decide)

include hinner in
/-- The first clause of a loop is read in each of its three forms. -/
theorem reads_forInitializer
    {used : List Token}
    {phrase : Option Phrase}
    {o : Bool}
    {follow : List Token → Prop}
    (hn : used.length ≤ n + 1)
    (hbuilt : Builds (.category .forFirst) used phrase o) :
    ReadsAs (forInitializer inner) .optionalStmt used phrase follow := by
  obtain ⟨rule, hrule, ps, o', hrow, rfl, rfl⟩ := hbuilt.cases (l := [_, _, _]) rfl
  simp only [List.mem_cons, List.not_mem_nil, or_false] at hrule
  rcases hrule with rfl | rfl | rfl
  · obtain ⟨-, p, rfl, hfirst⟩ := buildsAll_single_iff.mp hrow
    obtain ⟨word, second, rfl, hword, tree, rfl, hreads⟩ :=
      reads_variableDeclaration hinner used p o' hn hfirst
    have hclosed := hfirst.closed (by decide)
    refine ⟨tree.map some, by cases tree <;> rfl, reads_accept (by simp [hword]) ?_⟩
    have hne : (TokenKind.varWord == TokenKind.semicolon) = false := by decide
    simp only [hword, hne, Bool.false_eq_true, if_false]
    exact reads_map some (reads_mono hreads fun rest _ => by simp [EndsStmt, hclosed])
  · obtain ⟨-, p, rfl, hfirst⟩ := buildsAll_single_iff.mp hrow
    obtain ⟨tree, rfl, hreads⟩ : ReadsAs (expressionStatement inner) .stmt used p follow :=
      reads_expressionStatement hinner hn hfirst
    refine ⟨tree.map some, by cases tree <;> rfl, ?_⟩
    exact reads_accept_none (reads_map some hreads) fun rest _ => hfirst.stops rfl (by decide) rest
  · simp only [buildsAll_terminal_iff, buildsAll_nil] at hrow
    obtain ⟨t, _, _, ht, rfl, rfl, -, rfl, rfl, rfl⟩ := hrow
    refine ⟨some none, rfl, reads_accept (by simp [ht]) ?_⟩
    simp only [ht, beq_self_eq_true, if_true]
    exact reads_pure none

include hinner in
theorem reads_printStatement :
    ReadsBehind (n + 1) .printWord (fun _ => printStatement inner) .printStmt := by
  intro used phrase o hn hbuilt
  obtain ⟨rule, hrule, ps, o', hrow, rfl, rfl⟩ := hbuilt.cases (l := [_]) rfl
  obtain rfl := List.mem_singleton.mp hrule
  simp only [buildsAll_category_iff, buildsAll_terminal_iff, buildsAll_nil] at hrow
  obtain ⟨word, _, _, hword, rfl, rfl, -, first, _, p, _, o₁, rfl, rfl, hfirst,
    closing, _, _, hclosing, rfl, rfl, -, rfl, rfl, rfl⟩ := hrow
  simp only [List.length_append, List.length_cons, List.length_nil] at hn
  obtain ⟨tree, rfl, hreads⟩ := hinner first p o₁ (by omega) hfirst
  refine ⟨word, _, rfl, hword, tree.bind fun e => some (.printStmt e), by cases tree <;> rfl, ?_⟩
  exact reads_bind hreads (fun e => reads_expect hclosing (reads_pure _))
    fun rest _ => stops_cons.mpr (by rw [hclosing]; decide)

include hinner in
/-- Returns are read with and without a value. -/
theorem reads_returnStatement :
    ReadsBehind (n + 1) .returnWord (fun word => returnStatement word inner) .returnStmt := by
  intro used phrase o hn hbuilt
  obtain ⟨rule, hrule, ps, o', hrow, rfl, rfl⟩ := hbuilt.cases (l := [_]) rfl
  obtain rfl := List.mem_singleton.mp hrule
  simp only [buildsAll_category_iff, buildsAll_terminal_iff, buildsAll_nil] at hrow
  obtain ⟨word, _, _, hword, rfl, rfl, -, first, _, p, _, o₁, rfl, rfl, hfirst,
    closing, _, _, hclosing, rfl, rfl, -, rfl, rfl, rfl⟩ := hrow
  simp only [List.length_append, List.length_cons, List.length_nil] at hn
  obtain ⟨value, rfl, hvalue⟩ := reads_unlessAt hinner (.inl rfl) (by omega) hfirst
  refine ⟨word, _, rfl, hword, value.bind fun v => some (.returnStmt word v), ?_, ?_⟩
  · cases value <;> rfl
  · exact reads_bind hvalue (fun v => reads_expect hclosing (reads_pure _))
      fun rest _ => ⟨closing, rest, rfl, hclosing⟩

include hitem in
theorem reads_block :
    ReadsBehind (n + 1) .leftBrace (fun _ => .block <$> blockBody item) .block := by
  intro used phrase o hn hbuilt
  obtain ⟨rule, hrule, ps, o', hrow, rfl, rfl⟩ := hbuilt.cases (l := [_]) rfl
  obtain rfl := List.mem_singleton.mp hrule
  simp only [buildsAll_category_iff, buildsAll_terminal_iff, buildsAll_nil] at hrow
  obtain ⟨word, _, _, hword, rfl, rfl, -, first, _, p, _, o₁, rfl, rfl, hfirst,
    closing, _, _, hclosing, rfl, rfl, -, rfl, rfl, rfl⟩ := hrow
  simp only [List.length_append, List.length_cons, List.length_nil] at hn
  obtain ⟨body, rfl, hbody⟩ := reads_blockBody hitem (by omega) hfirst hclosing
  exact ⟨word, _, rfl, hword, body.map .block, by cases body <;> rfl, reads_map _ hbody⟩

include hinner hbranch in
theorem reads_whileStatement :
    ReadsBehind (n + 1) .whileWord (fun _ => whileStatement inner branch) .whileStmt := by
  intro used phrase o hn hbuilt
  obtain ⟨rule, hrule, ps, o', hrow, rfl, rfl⟩ := hbuilt.cases (l := [_]) rfl
  obtain rfl := List.mem_singleton.mp hrule
  simp only [buildsAll_category_iff, buildsAll_terminal_iff, buildsAll_single_iff] at hrow
  obtain ⟨word, _, _, hword, rfl, rfl, -, opening, _, _, hopening, rfl, rfl, -,
    first, _, p, _, o₁, rfl, rfl, hfirst, closing, second, _, hclosing, rfl, rfl, -, -,
    q, rfl, hsecond⟩ := hrow
  simp only [List.length_append, List.length_cons] at hn
  obtain ⟨condition, rfl, hcondition⟩ := hinner first p o₁ (by omega) hfirst
  obtain ⟨body, rfl, hbody⟩ := hbranch second q o' (by omega) hsecond
  refine ⟨word, _, rfl, hword, condition.bind fun e => body.map fun b => .whileStmt e b, ?_, ?_⟩
  · cases condition with
    | none => rfl
    | some e => cases body <;> rfl
  · exact reads_expect hopening (reads_bind hcondition (fun e => reads_expect hclosing
      (reads_map _ hbody)) fun rest _ => stops_cons.mpr (by rw [hclosing]; decide))

include hinner hbranch in
/-- Loops with three clauses are read as what they stand for. -/
theorem reads_forStatement :
    ReadsBehind (n + 1) .forWord (fun _ => forStatement inner branch) .forStmt := by
  intro used phrase o hn hbuilt
  obtain ⟨rule, hrule, ps, o', hrow, rfl, rfl⟩ := hbuilt.cases (l := [_]) rfl
  obtain rfl := List.mem_singleton.mp hrule
  obtain ⟨word, _, _, hword, rfl, rfl, -, hrow⟩ := buildsAll_terminal_iff.mp hrow
  obtain ⟨opening, _, _, hopening, rfl, rfl, -, hrow⟩ := buildsAll_terminal_iff.mp hrow
  obtain ⟨used₁, _, p₁, _, o₁, rfl, rfl, hbuilt₁, hrow⟩ := buildsAll_category_iff.mp hrow
  obtain ⟨used₂, _, p₂, _, o₂, rfl, rfl, hbuilt₂, hrow⟩ := buildsAll_category_iff.mp hrow
  obtain ⟨separator, _, _, hseparator, rfl, rfl, -, hrow⟩ := buildsAll_terminal_iff.mp hrow
  obtain ⟨used₃, _, p₃, _, o₃, rfl, rfl, hbuilt₃, hrow⟩ := buildsAll_category_iff.mp hrow
  obtain ⟨closing, _, _, hclosing, rfl, rfl, -, hrow⟩ := buildsAll_terminal_iff.mp hrow
  obtain ⟨used₄, _, p₄, _, o₄, rfl, rfl, hbuilt₄, hrow⟩ := buildsAll_category_iff.mp hrow
  obtain ⟨rfl, rfl, rfl⟩ := buildsAll_nil.mp hrow
  simp only [List.length_append, List.length_cons, List.length_nil] at hn
  obtain ⟨first, rfl, hfirst⟩ :
      ReadsAs (forInitializer inner) .optionalStmt used₁ p₁ fun _ => True :=
    reads_forInitializer hinner (by omega) hbuilt₁
  obtain ⟨condition, rfl, hcondition⟩ := reads_unlessAt hinner (.inl rfl) (by omega) hbuilt₂
  obtain ⟨increment, rfl, hincrement⟩ := reads_unlessAt hinner (.inr rfl) (by omega) hbuilt₃
  obtain ⟨body, rfl, hbody⟩ := hbranch used₄ p₄ o' (by omega) hbuilt₄
  refine ⟨word, _, rfl, hword, first.bind fun f => condition.bind fun c => increment.bind fun i =>
    body.map fun b => .forLoop f c i b, ?_, ?_⟩
  · cases first with
    | none => rfl
    | some f =>
        cases condition with
        | none => rfl
        | some c =>
            cases increment with
            | none => rfl
            | some i => cases body <;> rfl
  · rw [List.append_nil]
    exact reads_expect hopening (reads_bind hfirst (fun f => reads_bind hcondition
      (fun c => reads_expect hseparator (reads_bind hincrement
        (fun i => reads_expect hclosing (reads_map _ hbody))
        fun rest _ => ⟨closing, _, rfl, hclosing⟩))
      fun rest _ => ⟨separator, _, rfl, hseparator⟩) fun _ _ => trivial)

include hinner hbranch in
/-- Conditionals are read, and an `else` belongs to the nearest one. -/
theorem reads_ifStatement :
    ReadsBehind (n + 1) .ifWord (fun _ => ifStatement inner branch) .ifStmt := by
  intro used phrase o hn hbuilt
  obtain ⟨rule, hrule, ps, o', hrow, rfl, rfl⟩ := hbuilt.cases (l := [_, _]) rfl
  simp only [List.mem_cons, List.not_mem_nil, or_false] at hrule
  rcases hrule with rfl | rfl
  · obtain ⟨word, _, _, hword, rfl, rfl, -, hrow⟩ := buildsAll_terminal_iff.mp hrow
    obtain ⟨opening, _, _, hopening, rfl, rfl, -, hrow⟩ := buildsAll_terminal_iff.mp hrow
    obtain ⟨first, _, p, _, o₁, rfl, rfl, hfirst, hrow⟩ := buildsAll_category_iff.mp hrow
    obtain ⟨closing, _, _, hclosing, rfl, rfl, -, hrow⟩ := buildsAll_terminal_iff.mp hrow
    obtain ⟨second, _, q, _, o₂, rfl, rfl, hsecond, hrow⟩ := buildsAll_category_iff.mp hrow
    obtain ⟨rfl, rfl, rfl⟩ := buildsAll_nil.mp hrow
    simp only [List.length_append, List.length_cons, List.length_nil] at hn
    obtain ⟨condition, rfl, hcondition⟩ := hinner first p o₁ (by omega) hfirst
    obtain ⟨branch, rfl, hthen⟩ := hbranch second q o' (by omega) hsecond
    refine ⟨word, _, rfl, hword, condition.bind fun e => branch.bind fun s =>
      some (.ifStmt e s none), ?_, ?_⟩
    · cases condition with
      | none => rfl
      | some e => cases branch <;> rfl
    · -- the text is open, so no `else` follows it
      refine reads_expect hopening (reads_bind hcondition (fun e => reads_expect hclosing
        (reads_bind hthen (fun s => reads_accept_none (reads_pure _) fun rest hrest => hrest rfl)
          fun rest hrest _ => hrest rfl)) fun rest _ => stops_cons.mpr (by rw [hclosing]; decide))
  · obtain ⟨word, _, _, hword, rfl, rfl, -, hrow⟩ := buildsAll_terminal_iff.mp hrow
    obtain ⟨opening, _, _, hopening, rfl, rfl, -, hrow⟩ := buildsAll_terminal_iff.mp hrow
    obtain ⟨first, _, p, _, o₁, rfl, rfl, hfirst, hrow⟩ := buildsAll_category_iff.mp hrow
    obtain ⟨closing, _, _, hclosing, rfl, rfl, -, hrow⟩ := buildsAll_terminal_iff.mp hrow
    obtain ⟨second, _, q, _, o₂, rfl, rfl, hsecond, hrow⟩ := buildsAll_category_iff.mp hrow
    obtain ⟨elseWord, _, _, helse, rfl, rfl, hnearest, hrow⟩ := buildsAll_terminal_iff.mp hrow
    obtain ⟨third, _, r, _, o₃, rfl, rfl, hthird, hrow⟩ := buildsAll_category_iff.mp hrow
    obtain ⟨rfl, rfl, rfl⟩ := buildsAll_nil.mp hrow
    simp only [List.length_append, List.length_cons, List.length_nil] at hn
    have hclosed : o₂ = false := by simpa using hnearest
    obtain ⟨condition, rfl, hcondition⟩ := hinner first p o₁ (by omega) hfirst
    obtain ⟨branch₁, rfl, hthen⟩ := hbranch second q o₂ (by omega) hsecond
    obtain ⟨branch₂, rfl, hother⟩ := hbranch third r o' (by omega) hthird
    refine ⟨word, _, rfl, hword, condition.bind fun e => branch₁.bind fun s =>
      branch₂.map fun s' => .ifStmt e s (some s'), ?_, ?_⟩
    · cases condition with
      | none => rfl
      | some e =>
          cases branch₁ with
          | none => rfl
          | some s => cases branch₂ <;> rfl
    · rw [List.append_nil]
      refine reads_expect hopening (reads_bind hcondition (fun e => reads_expect hclosing
        (reads_bind hthen (fun s => reads_accept (by simp [helse]) (reads_map _ hother))
          fun rest _ => ?_)) fun rest _ => stops_cons.mpr (by rw [hclosing]; decide))
      simp [EndsStmt, hclosed]

/-- What stands behind a word is read by the parser that is chosen for the word. -/
theorem ReadsBehind.accept
    {kind : TokenKind}
    {kinds : List TokenKind}
    {parser : Token → Parser Stmt}
    {f : Option Token → Parser Stmt}
    {c : Category}
    (h : ReadsBehind n kind parser c)
    (hkind : kind ∈ kinds)
    (hf : ∀ t : Token, t.kind = kind → f (some t) = parser t) :
    ReadsUpTo n (accept kinds >>= f) c .stmt EndsStmt := by
  intro used phrase o hn hbuilt
  obtain ⟨word, second, rfl, hword, tree, hphrase, hreads⟩ := h used phrase o hn hbuilt
  refine ⟨tree, hphrase, reads_accept (by rw [hword]; exact hkind) ?_⟩
  rw [hf word hword]
  exact hreads

include hinner hbranch hitem

/-- A statement is chosen by its first token. -/
theorem reads_statementOf :
    ReadsUpTo (n + 1) (statementOf inner branch item) .statement .stmt EndsStmt := by
  intro used phrase o hn hbuilt
  have hrules : rules.filter (·.category == .statement) = alternatives .statement
      [.exprStmt, .forStmt, .ifStmt, .printStmt, .returnStmt, .whileStmt, .block] := rfl
  obtain ⟨c, hc, hpart⟩ := (builds_alternatives_iff hrules).mp hbuilt
  simp only [List.mem_cons, List.not_mem_nil, or_false] at hc
  rcases hc with rfl | rfl | rfl | rfl | rfl | rfl | rfl
  · obtain ⟨tree, hphrase, hreads⟩ : ReadsAs (expressionStatement inner) .stmt used phrase
      (EndsStmt o) := reads_expressionStatement hinner hn hpart
    exact ⟨tree, hphrase, reads_accept_none hreads fun rest _ => hpart.stops rfl (by decide) rest⟩
  · exact (reads_forStatement hinner hbranch).accept (by decide) (fun t ht => by simp only [ht])
      used phrase o hn hpart
  · exact (reads_ifStatement hinner hbranch).accept (by decide) (fun t ht => by simp only [ht])
      used phrase o hn hpart
  · exact (reads_printStatement hinner).accept (by decide) (fun t ht => by simp only [ht])
      used phrase o hn hpart
  · exact (reads_returnStatement hinner).accept (by decide) (fun t ht => by simp only [ht])
      used phrase o hn hpart
  · exact (reads_whileStatement hinner hbranch).accept (by decide) (fun t ht => by simp only [ht])
      used phrase o hn hpart
  · exact (reads_block hitem).accept (by decide) (fun t ht => by simp only [ht])
      used phrase o hn hpart

omit hbranch in
/-- A declaration is chosen by its first token, and every statement is one. -/
theorem reads_declarationOf
    (hbranch : ReadsUpTo (n + 1) branch .statement .stmt EndsStmt) :
    ReadsUpTo (n + 1) (declarationOf inner branch item) .declaration .stmt EndsStmt := by
  intro used phrase o hn hbuilt
  have hrules : rules.filter (·.category == .declaration) = alternatives .declaration
      [.classDecl, .funDecl, .constDecl, .varDecl, .statement] := rfl
  obtain ⟨c, hc, hpart⟩ := (builds_alternatives_iff hrules).mp hbuilt
  simp only [List.mem_cons, List.not_mem_nil, or_false] at hc
  rcases hc with rfl | rfl | rfl | rfl | rfl
  · exact (reads_classDeclaration hitem).accept (by decide) (fun t ht => by simp only [ht])
      used phrase o hn hpart
  · have hfunction : ReadsBehind (n + 1) .funWord
        (fun _ => .funDecl <$> routine .function item) .funDecl := by
      intro used phrase o hn hbuilt
      obtain ⟨rule, hrule, ps, o', hrow, rfl, rfl⟩ := hbuilt.cases (l := [_]) rfl
      obtain rfl := List.mem_singleton.mp hrule
      simp only [buildsAll_terminal_iff, buildsAll_single_iff] at hrow
      obtain ⟨word, second, _, hword, rfl, rfl, -, -, p, rfl, hsecond⟩ := hrow
      rw [List.length_cons] at hn
      obtain ⟨tree, rfl, hreads⟩ : ReadsAs (routine .function item) .routine second p
        (EndsStmt o') := reads_routine hitem .function (by omega) hsecond
      exact ⟨word, second, rfl, hword, tree.map .funDecl, by cases tree <;> rfl,
        reads_map _ hreads⟩
    exact hfunction.accept (by decide) (fun t ht => by simp only [ht]) used phrase o hn hpart
  · exact (reads_constantDeclaration hinner).accept (by decide) (fun t ht => by simp only [ht])
      used phrase o hn hpart
  · exact (reads_variableDeclaration hinner).accept (by decide) (fun t ht => by simp only [ht])
      used phrase o hn hpart
  · obtain ⟨tree, hphrase, hreads⟩ := hbranch used phrase o hn hpart
    exact ⟨tree, hphrase, reads_accept_none hreads fun rest _ => hpart.stops rfl (by decide) rest⟩

end Statements

/-- What is read without errors is read where errors would be recovered from. -/
theorem readsItems_recovering
    {n : Nat}
    {parser : Parser Stmt}
    (h : ReadsUpTo n parser .declaration .stmt EndsStmt) :
    ReadsItemsUpTo n (recovering parser) := by
  intro used phrase o hn hbuilt
  obtain ⟨tree, hphrase, hreads⟩ := h used phrase o hn hbuilt
  refine ⟨tree, hphrase, fun rest errors hrest => ?_⟩
  obtain ⟨s, new, hrun, htree⟩ := hreads rest errors hrest
  exact ⟨s, new, by rw [recovering, hrun], htree⟩

mutual

/-- All declarations are read with enough allowance for their length. -/
theorem reads_declaration :
    ∀ allowance n, 2 * n + 1 ≤ allowance → ReadsItemsUpTo n (declaration allowance)
  | 0, _, h => by omega
  | allowance + 1, 0, h => by
      intro used phrase o hn hbuilt
      obtain ⟨t, ts, rfl, -⟩ := hbuilt.opens rfl
      simp at hn
  | allowance + 1, n + 1, h =>
      readsItems_recovering <|
        reads_declarationOf (reads_expression allowance n (by omega))
          (reads_declaration allowance n (by omega)) (reads_statement allowance (n + 1) (by omega))

/-- All statements are read with enough allowance for their length. -/
theorem reads_statement :
    ∀ allowance n, 2 * n ≤ allowance →
      ReadsUpTo n (statement allowance) .statement .stmt EndsStmt
  | _, 0, _ => readsUpTo_zero rfl
  | 0, n + 1, h => by omega
  | allowance + 1, n + 1, h =>
      reads_statementOf (reads_expression allowance n (by omega))
        (reads_statement allowance n (by omega)) (reads_declaration allowance n (by omega))

end

end Parser

/--
Of a text that is derived, the parse has the tree if it has no errors, and there is none else.
-/
theorem Parse.read_of_builds
    {tokens : List Token}
    {phrase : Option Grammar.Phrase}
    {isOpen : Bool}
    (h : Grammar.Builds (.category .program) tokens phrase isOpen) :
    phrase = if (Parse.ofTokens tokens).errors = [] then
      some (.stmts (Parse.ofTokens tokens).statements) else none := by
  have hrules : Grammar.rules.filter (·.category == .program)
      = Grammar.alternatives .program [.declarations] := rfl
  obtain ⟨c, hc, hdeclarations⟩ := (Grammar.builds_alternatives_iff hrules).mp h
  obtain rfl := List.mem_singleton.mp hc
  obtain ⟨tree, rfl, hreads⟩ := Parser.reads_declarations
    (Parser.reads_declaration (2 * tokens.length + 4) tokens.length (by omega)) [] (by decide)
    le_rfl hdeclarations
  obtain ⟨statements, new, hrun, rfl⟩ := hreads [] [] ⟨Grammar.stops_nil _, .inl rfl⟩
  rw [List.append_nil, List.append_nil] at hrun
  have hparse : Parse.ofTokens tokens = ⟨statements, new.reverse⟩ := by
    rw [Parse.ofTokens, Parse.within, Parser.program, hrun]
  rw [hparse]
  cases new <;> simp [Parser.clean]

end Lox
