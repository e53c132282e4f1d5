import Lox.Grammar.ShiftReduce
import Lox.Proofs.Grammar.Agreement
import Lox.Proofs.Grammar.NearestElse

/-!
# What is shifted and reduced is derived

The items after the top of the stack say which rules are partly on the stack, and so a reduction
takes off the stack just what its rule derives.  A conditional without an `else` shares its items
with the one that has an `else`: as long as an `else` is next, it can be shifted, and nothing that
it could continue is reduced.

**Main definitions.**
* `Item.Fits`: an item tells what is on top of the stack.
* `Stacked`: derivations on the stack with their items.
* `Progress`: the stack and the rest of the input make up the tokens.

**Results.**
* `derivation?_sound`: what is built derives the tokens as a program, with the nearest `else`.
* `parsed_of_derivation?`: the parser reads the same program from these tokens.
-/

namespace Lox
namespace Grammar

section Sets

variable {α : Type} [BEq α]

theorem mem_union [LawfulBEq α] {found added : List α} {a : α} :
    a ∈ union found added ↔ a ∈ found ∨ a ∈ added := by
  rw [union, List.mem_append, List.mem_filter]
  constructor
  · rintro (hfound | ⟨hadded, -⟩)
    · exact .inl hfound
    · exact .inr hadded
  · rintro (hfound | hadded)
    · exact .inl hfound
    · by_cases hfound : a ∈ found
      · exact .inl hfound
      · exact .inr ⟨hadded, by simpa using hfound⟩

/-- Only the set of the category that is added to changes. -/
theorem Sets.get_add (sets : Sets α) (c c' : Category) (added : List α) :
    (sets.add c added).get c' = if c' = c then union (sets.get c) added else sets.get c' := by
  induction sets with
  | nil =>
      by_cases h : c' = c
      · simp [Sets.add, Sets.get, h]
      · have hne : (c' == c) = false := by simpa using h
        simp [Sets.add, Sets.get, List.lookup, h, hne]
  | cons entry rest ih =>
      obtain ⟨key, held⟩ := entry
      unfold Sets.get at ih ⊢
      by_cases hkey : key = c
      · subst hkey
        by_cases h : c' = key
        · simp [Sets.add, h]
        · have hne : (c' == key) = false := by simpa using h
          simp [Sets.add, List.lookup, h, hne]
      · have hput : Sets.add c added ((key, held) :: rest) =
            (key, held) :: Sets.add c added rest := by simp [Sets.add, hkey]
        rw [hput]
        by_cases h : c' = key
        · subst h
          simp [hkey]
        · have hne : (c' == key) = false := by simpa using h
          have hne' : (c == key) = false := by simpa using Ne.symm hkey
          simpa [List.lookup, hne, hne'] using ih

/-- What a round keeps is so after any number of rounds. -/
theorem repeatRound_induction
    {β : Type}
    {P : β → Prop}
    {round : β → β}
    (hround : ∀ b, P b → P (round b))
    (n : Nat)
    {b : β}
    (h : P b) :
    P (repeatRound round n b) := by
  induction n generalizing b with
  | zero => exact h
  | succ n ih => exact ih (hround b h)

/-- What adding one member keeps is so when all are added. -/
theorem foldl_induction
    {β γ : Type}
    {P : β → Prop}
    {step : β → γ → β}
    {items : List γ}
    (hstep : ∀ b, ∀ x ∈ items, P b → P (step b x))
    {b : β}
    (h : P b) :
    P (items.foldl step b) := by
  induction items generalizing b with
  | nil => exact h
  | cons x rest ih =>
      exact ih (fun b y hy => hstep b y (List.mem_cons_of_mem x hy))
        (hstep b x List.mem_cons_self h)

end Sets

section Program

/-- No rule has a whole program as a part. -/
theorem program_not_mem_symbols : ∀ r ∈ rules, .category .program ∉ r.symbols := by decide

theorem get_program_addFollowers
    (after : List Lookahead)
    {symbols : List Symbol}
    (h : .category .program ∉ symbols)
    (sets : Sets Lookahead) :
    (addFollowers after symbols sets).get .program = sets.get .program := by
  induction symbols generalizing sets with
  | nil => rfl
  | cons s rest ih =>
      rw [List.mem_cons, not_or] at h
      cases s with
      | terminal kind => exact ih h.2 sets
      | category c =>
          have hne : .program ≠ c := fun heq => h.1 (congrArg Symbol.category heq)
          rw [addFollowers, ih h.2, Sets.get_add, if_neg hne]

/-- Nothing but the end follows a program. -/
theorem get_program_followers : followers.get .program = [none] := by
  refine repeatRound_induction (P := fun sets => Sets.get sets .program = [none]) ?_ _ rfl
  intro sets hsets
  refine foldl_induction (P := fun sets => Sets.get sets .program = [none]) ?_ hsets
  intro sets r hr hsets
  rw [get_program_addFollowers _ (program_not_mem_symbols r hr), hsets]

/-- Only a program starts with a program. -/
theorem program_not_mem_corners {c : Category} (hc : c ≠ .program) : .program ∉ corners.get c := by
  have hround : ∀ sets : Sets Category, (∀ c ≠ .program, .program ∉ sets.get c) →
      ∀ r ∈ rules, ∀ c ≠ .program,
        .program ∉ (sets.add r.category
          (r.category :: ((leadingCategory? r.symbols).map sets.get).getD [])).get c := by
    intro sets hsets r hr c hc
    rw [Sets.get_add]
    split
    · next heq =>
        subst heq
        rw [mem_union, List.mem_cons]
        rintro (hold | hself | hlead)
        · exact hsets _ hc hold
        · exact hc hself.symm
        · cases hleading : leadingCategory? r.symbols with
          | none => simp [hleading] at hlead
          | some lead =>
              rw [hleading] at hlead
              refine hsets lead ?_ hlead
              rintro rfl
              cases hsymbols : r.symbols with
              | nil => simp [hsymbols, leadingCategory?] at hleading
              | cons s rest =>
                  cases s with
                  | terminal kind => simp [hsymbols, leadingCategory?] at hleading
                  | category c' =>
                      obtain rfl : c' = .program := by
                        simpa [hsymbols, leadingCategory?] using hleading
                      exact program_not_mem_symbols r hr (hsymbols ▸ List.mem_cons_self)
    · exact hsets c hc
  refine repeatRound_induction
    (P := fun sets : Sets Category => ∀ c ≠ .program, .program ∉ sets.get c) ?_ _ ?_ c hc
  · intro sets hsets
    refine foldl_induction
      (P := fun sets : Sets Category => ∀ c ≠ .program, .program ∉ sets.get c) ?_ hsets
    exact fun sets r hr hsets => hround sets hsets r hr
  · intro c _
    simp [Sets.get]

end Program

section Items

/--
An item tells what is on top of a stack of derivations: those parts of its rule that are no longer
ahead.  Only a program goes down to the bottom of the stack.
-/
structure Item.Fits (item : Item) (stack : List Derivation) : Prop where
  rule : item.rule ∈ rules
  parts : ∃ done below : List Derivation, stack = done.reverse ++ below
    ∧ item.rule.symbols = done.map Derivation.symbol ++ item.ahead
    ∧ (item.rule.category = .program → below = [])

/-- A conditional without an `else` is never on the stack without the one that has an `else`. -/
def Continues (items : List Item) : Prop :=
  ∀ item ∈ items, item.rule.meaning = .ifStmt →
    ⟨⟨.ifStmt, .ifElseStmt, conditionalRow ++ alternativeRow⟩, item.ahead ++ alternativeRow⟩ ∈ items

variable {items : List Item} {stack : List Derivation} {d : Derivation}

/-- A category that is ahead in an item is a part of a rule, so it is not a program. -/
theorem Item.Fits.leading_ne
    {item : Item}
    (h : item.Fits stack)
    {c : Category}
    (hleading : leadingCategory? item.ahead = some c) :
    c ≠ .program := by
  rintro rfl
  obtain ⟨done, below, -, hsymbols, -⟩ := h.parts
  cases hahead : item.ahead with
  | nil => simp [hahead, leadingCategory?] at hleading
  | cons s rest =>
      cases s with
      | terminal kind => simp [hahead, leadingCategory?] at hleading
      | category c =>
          obtain rfl : c = .program := by simpa [hahead, leadingCategory?] using hleading
          refine program_not_mem_symbols item.rule h.rule ?_
          rw [hsymbols, hahead]
          exact List.mem_append_right _ List.mem_cons_self

/-- The rules that are added can come next, and no part of them is on the stack yet. -/
theorem mem_complete
    (hfits : ∀ item ∈ items, item.Fits stack)
    {item : Item}
    (h : item ∈ complete items) :
    item ∈ items ∨ item.rule ∈ rules ∧ item.ahead = item.rule.symbols
      ∧ item.rule.category ≠ .program := by
  rcases List.mem_append.mp h with h | h
  · exact .inl h
  · obtain ⟨r, hr, rfl⟩ := List.mem_map.mp h
    obtain ⟨hrule, hnext⟩ := List.mem_filter.mp hr
    refine .inr ⟨hrule, rfl, ?_⟩
    intro hprogram
    rw [hprogram, List.contains_iff_mem] at hnext
    -- every category that comes next stands at the start of one that is ahead
    refine absurd hnext (foldl_induction (P := (Category.program ∉ ·)) ?_ List.not_mem_nil)
    intro found item hitem hfound
    cases hleading : leadingCategory? item.ahead with
    | none => exact hfound
    | some c =>
        rw [mem_union, not_or]
        exact ⟨hfound, program_not_mem_corners ((hfits item hitem).leading_ne hleading)⟩

/-- Rules that can come next fit any stack. -/
theorem fits_complete
    (hfits : ∀ item ∈ items, item.Fits stack) :
    ∀ item ∈ complete items, item.Fits stack := by
  intro item hitem
  rcases mem_complete hfits hitem with hold | ⟨hrule, hahead, hcategory⟩
  · exact hfits item hold
  · exact ⟨hrule, [], stack, rfl, hahead.symm, fun h => absurd h hcategory⟩

/-- The two rules for conditionals come next together. -/
theorem continues_complete (h : Continues items) :
    Continues (complete items) := by
  intro item hitem hmeaning
  rcases List.mem_append.mp hitem with hold | hnew
  · exact List.mem_append_left _ (h item hold hmeaning)
  · refine List.mem_append_right _ ?_
    obtain ⟨r, hr, rfl⟩ := List.mem_map.mp hnew
    obtain ⟨hrule, hnext⟩ := List.mem_filter.mp hr
    obtain rfl := eq_conditional r hrule hmeaning
    exact List.mem_map.mpr
      ⟨_, List.mem_filter.mpr ⟨mem_rules_alternative, hnext⟩, rfl⟩

theorem mem_after
    {s : Symbol}
    {item : Item} :
    item ∈ Item.after s items ↔ ⟨item.rule, s :: item.ahead⟩ ∈ items := by
  rw [Item.after, List.mem_filterMap]
  constructor
  · rintro ⟨⟨rule, ahead⟩, hitem, hnext⟩
    cases ahead with
    | nil => cases hnext
    | cons next rest =>
        by_cases hsame : next = s
        · subst hsame
          obtain rfl : (⟨rule, rest⟩ : Item) = item := by simpa using hnext
          exact hitem
        · simp [hsame] at hnext
  · exact fun hitem => ⟨_, hitem, by simp⟩

/-- When the symbol of a derivation has been passed, the derivation is on top of the stack. -/
theorem fits_after
    (hfits : ∀ item ∈ items, item.Fits stack) :
    ∀ item ∈ Item.after d.symbol items, item.Fits (d :: stack) := by
  intro item hitem
  obtain ⟨hrule, done, below, rfl, hsymbols, hbottom⟩ := hfits _ (mem_after.mp hitem)
  refine ⟨hrule, done ++ [d], below, ?_, ?_, hbottom⟩
  · rw [List.reverse_append, List.reverse_singleton, List.append_assoc]
    rfl
  · rw [hsymbols, List.map_append, List.append_assoc]
    rfl

theorem continues_after
    (h : Continues items)
    (s : Symbol) :
    Continues (Item.after s items) := by
  intro item hitem hmeaning
  exact mem_after.mpr (h _ (mem_after.mp hitem) hmeaning)

/-- Before any token, only programs are ahead. -/
theorem fits_initialItems : ∀ item ∈ initialItems, item.Fits [] := by
  refine fits_complete fun item hitem => ?_
  obtain ⟨r, hr, rfl⟩ := List.mem_map.mp hitem
  exact ⟨(List.mem_filter.mp hr).1, [], [], rfl, rfl, fun _ => rfl⟩

theorem continues_initialItems : Continues initialItems := by
  have hprograms : ∀ item ∈ (rules.filter (·.category == .program)).map fun r =>
      (⟨r, r.symbols⟩ : Item), item.rule.meaning ≠ .ifStmt := by
    intro item hitem hmeaning
    obtain ⟨r, hr, rfl⟩ := List.mem_map.mp hitem
    obtain ⟨hrule, hcategory⟩ := List.mem_filter.mp hr
    obtain rfl := eq_conditional r hrule hmeaning
    cases hcategory
  exact continues_complete fun item hitem hmeaning => absurd hmeaning (hprograms item hitem)

end Items

section Stacks

/-- Whether a row ends open depends on the last part. -/
theorem lastOpen_append (before : Bool) (ds : List Derivation) (d : Derivation) :
    Derivation.lastOpen before (ds ++ [d]) = d.endsOpen := by
  induction ds generalizing before with
  | nil => rfl
  | cons e ds ih => exact ih e.endsOpen

/-- Derivations on a stack, each with the items that it leads to. -/
inductive Stacked : List Entry → Prop
  | nil : Stacked []
  | cons
      {d : Derivation}
      {items : List Item}
      {below : List Entry}
      (hvalid : d.Valid)
      (hnearest : d.NearestElse)
      (helse : ∀ e ∈ below.head?, e.derivation.endsOpen = true → d.symbol ≠ .terminal .elseWord)
      (hfits : ∀ item ∈ items, item.Fits (d :: below.map Entry.derivation))
      (hcontinues : Continues items)
      (hbelow : Stacked below) :
      Stacked (⟨d, items⟩ :: below)

variable {stack : List Entry}

/-- The items on top fit the stack. -/
theorem Stacked.topItems
    (h : Stacked stack) :
    (∀ item ∈ topItems stack, item.Fits (stack.map Entry.derivation))
      ∧ Continues (topItems stack) := by
  cases h with
  | nil => exact ⟨fits_initialItems, continues_initialItems⟩
  | cons _ _ _ hfits hcontinues _ => exact ⟨hfits, hcontinues⟩

/-- What is put on a stack stays there with its items. -/
theorem Stacked.push?
    (h : Stacked stack)
    {d : Derivation}
    (hvalid : d.Valid)
    (hnearest : d.NearestElse)
    (helse : ∀ e ∈ stack.head?, e.derivation.endsOpen = true → d.symbol ≠ .terminal .elseWord)
    {stack' : List Entry}
    (hpush : push? d stack = some stack') :
    Stacked stack' ∧ stack'.map Entry.derivation = d :: stack.map Entry.derivation
      ∧ stack'.head?.map Entry.derivation = some d := by
  obtain ⟨hfits, hcontinues⟩ := h.topItems
  have hafter := fits_after (d := d) hfits
  have hcontinues' := continues_after hcontinues d.symbol
  unfold Grammar.push? at hpush
  cases hitems : Item.after d.symbol (Grammar.topItems stack) with
  | nil =>
      rw [hitems] at hpush
      cases hpush
  | cons item items =>
      rw [hitems] at hpush hafter hcontinues'
      cases hpush
      refine ⟨.cons hvalid hnearest helse (fits_complete hafter) ?_ h, rfl, rfl⟩
      exact continues_complete hcontinues'

/-- What is left of a stack is a stack. -/
theorem Stacked.drop (h : Stacked stack) (n : Nat) : Stacked (stack.drop n) := by
  induction n generalizing stack with
  | zero => exact h
  | succ n ih =>
      cases h with
      | nil => exact .nil
      | cons _ _ _ _ _ hbelow => exact ih hbelow

/-- The parts on top of a stack are derivations in a row, and the last of them is the top. -/
theorem Stacked.row
    (h : Stacked stack)
    {done below : List Derivation}
    (hstack : stack.map Entry.derivation = done.reverse ++ below) :
    Derivation.ValidAll done ∧ Derivation.NearestElseAll false done
      ∧ (Derivation.lastOpen false done = true →
        ∃ e ∈ stack.head?, e.derivation.endsOpen = true) := by
  induction done using List.reverseRecOn generalizing stack with
  | nil => exact ⟨trivial, trivial, nofun⟩
  | append_singleton done d ih =>
      rw [List.reverse_append, List.reverse_singleton, List.singleton_append,
        List.cons_append] at hstack
      cases h with
      | nil => cases hstack
      | @cons top items rest hvalid hnearest helse _ _ hrest =>
          obtain ⟨rfl, hbelow⟩ := List.cons.inj hstack
          obtain ⟨hvalids, hnearests, hlast⟩ := ih hrest hbelow
          refine ⟨?_, ?_, ?_⟩
          · exact Derivation.validAll_append.mpr ⟨hvalids, hvalid, trivial⟩
          · refine Derivation.nearestElseAll_append.mpr ⟨hnearests, ?_, hnearest, trivial⟩
            intro hopen
            obtain ⟨e, he, hends⟩ := hlast hopen
            exact helse e he hends
          · intro hopen
            refine ⟨⟨top, items⟩, rfl, ?_⟩
            rwa [lastOpen_append] at hopen

/-- Derivations on a stack that, with the rest of the input behind them, have some tokens. -/
structure Progress (tokens : List Token) (stack : List Entry) (input : List Token) : Prop where
  stacked : Stacked stack
  tokens : Derivation.tokensOfAll (stack.map Entry.derivation).reverse ++ input = tokens
  /-- What could be continued by an `else` is not in front of one. -/
  closed : ∀ e ∈ stack.head?, e.derivation.endsOpen = true →
    ∀ t ∈ input.head?, t.kind ≠ .elseWord

variable {tokens input : List Token}

/-- A token that is shifted goes from the input to the stack. -/
theorem Progress.shift
    {t : Token}
    {stack' : List Entry}
    (h : Progress tokens stack (t :: input))
    (hpush : push? (.leaf t) stack = some stack') :
    Progress tokens stack' input := by
  have helse : ∀ e ∈ stack.head?, e.derivation.endsOpen = true →
      (Derivation.leaf t).symbol ≠ .terminal .elseWord := by
    intro e he hopen hsymbol
    exact h.closed e he hopen t rfl (Symbol.terminal.inj hsymbol)
  have hvalid : (Derivation.leaf t).Valid := trivial
  have hnearest : (Derivation.leaf t).NearestElse := trivial
  obtain ⟨hstacked, hmap, htop⟩ := h.stacked.push? hvalid hnearest helse hpush
  refine ⟨hstacked, ?_, ?_⟩
  · rw [hmap, List.reverse_cons, Derivation.tokensOfAll_append, List.append_assoc]
    exact h.tokens
  · intro e he hopen
    rw [Option.mem_def.mp he] at htop
    rw [Option.some.inj htop] at hopen
    cases hopen

/-- What is found for a reduction is a rule whose parts are on top of the stack. -/
theorem reduction?_eq_some
    (h : Progress tokens stack input)
    {rule : Rule}
    (hrule : reduction? (input.head?.map Token.kind) (topItems stack) = some rule) :
    ∃ done below : List Derivation,
      rule ∈ rules ∧ stack.map Entry.derivation = done.reverse ++ below
        ∧ rule.symbols = done.map Derivation.symbol
        ∧ (rule.category = .program → below = [] ∧ input = [])
        ∧ ⟨rule, []⟩ ∈ topItems stack := by
  obtain ⟨⟨rule, ahead⟩, hfind, rfl⟩ := Option.map_eq_some_iff.mp hrule
  have hboth := List.find?_some hfind
  dsimp only at hboth
  obtain ⟨hempty, hfollows⟩ := Bool.and_eq_true_iff.mp hboth
  obtain rfl : ahead = [] := List.isEmpty_iff.mp hempty
  have hitem := List.mem_of_find?_eq_some hfind
  obtain ⟨hrule, done, below, hstack, hsymbols, hbottom⟩ := h.stacked.topItems.1 _ hitem
  refine ⟨done, below, hrule, hstack, by simpa using hsymbols, fun hprogram => ?_, hitem⟩
  refine ⟨hbottom hprogram, ?_⟩
  dsimp only at hprogram
  rw [hprogram, get_program_followers] at hfollows
  cases input with
  | nil => rfl
  | cons t rest => simp at hfollows

/-- Before an `else` that cannot be shifted, no conditional is reduced. -/
theorem kind_ne_else_of_reduction
    (h : Progress tokens stack input)
    {rule : Rule}
    (hitem : ⟨rule, []⟩ ∈ topItems stack)
    (hmeaning : rule.meaning = .ifStmt)
    (hstuck : ∀ t ∈ input.head?, push? (.leaf t) stack = none) :
    ∀ t ∈ input.head?, t.kind ≠ .elseWord := by
  intro t ht hkind
  have hcontinued := h.stacked.topItems.2 _ hitem hmeaning
  have hafter : (⟨⟨.ifStmt, .ifElseStmt, conditionalRow ++ alternativeRow⟩,
      [.category .statement]⟩ : Item) ∈ Item.after (Derivation.leaf t).symbol (topItems stack) := by
    rw [mem_after, Derivation.symbol, hkind]
    exact hcontinued
  have hnone := hstuck t ht
  unfold push? at hnone
  cases hitems : Item.after (Derivation.leaf t).symbol (topItems stack) with
  | nil =>
      rw [hitems] at hafter
      cases hafter
  | cons item items =>
      rw [hitems] at hnone
      cases hnone

/-- The node for a reduction derives what its parts do. -/
theorem Progress.node
    (h : Progress tokens stack input)
    {rule : Rule}
    {done below : List Derivation}
    (hrule : rule ∈ rules)
    (hstack : stack.map Entry.derivation = done.reverse ++ below)
    (hsymbols : rule.symbols = done.map Derivation.symbol) :
    (Derivation.node rule done).Valid ∧ (Derivation.node rule done).NearestElse
      ∧ reduce rule stack = (.node rule done, stack.drop done.length)
      ∧ (stack.drop done.length).map Entry.derivation = below := by
  obtain ⟨hvalid, hnearest, -⟩ := h.stacked.row hstack
  have hsize : rule.symbols.length = done.length := by rw [hsymbols, List.length_map]
  refine ⟨⟨hrule, hsymbols.symm, hvalid⟩, hnearest, ?_, ?_⟩
  · have hparts : (stack.take done.length).map Entry.derivation = done.reverse := by
      rw [List.map_take, hstack, List.take_left' (List.length_reverse)]
    rw [reduce, hsize, hparts, List.reverse_reverse]
  · rw [List.map_drop, hstack, List.drop_left' (List.length_reverse)]

/-- A reduction that is not of a program goes on with the node on the stack. -/
theorem Progress.reduced
    (h : Progress tokens stack input)
    {rule : Rule}
    (hrule : reduction? (input.head?.map Token.kind) (topItems stack) = some rule)
    (hstuck : ∀ t ∈ input.head?, push? (.leaf t) stack = none)
    {stack' : List Entry}
    (hpush : push? (reduce rule stack).1 (reduce rule stack).2 = some stack') :
    Progress tokens stack' input := by
  obtain ⟨done, below, hmem, hstack, hsymbols, -, hitem⟩ := reduction?_eq_some h hrule
  obtain ⟨hvalid, hnearest, hreduce, hbelow⟩ := h.node hmem hstack hsymbols
  rw [hreduce] at hpush
  have hsymbol : ∀ e ∈ (stack.drop done.length).head?, e.derivation.endsOpen = true →
      (Derivation.node rule done).symbol ≠ .terminal .elseWord := nofun
  obtain ⟨hstacked, hmap, htop⟩ :=
    (h.stacked.drop done.length).push? hvalid hnearest hsymbol hpush
  refine ⟨hstacked, ?_, ?_⟩
  · rw [hmap, hbelow, List.reverse_cons, Derivation.tokensOfAll_append]
    have htokens := h.tokens
    rw [hstack, List.reverse_append, List.reverse_reverse, Derivation.tokensOfAll_append] at htokens
    simpa [Derivation.tokensOfAll, Derivation.tokens] using htokens
  · intro e he hopen
    rw [Option.mem_def.mp he] at htop
    rw [Option.some.inj htop, Derivation.endsOpen, Bool.or_eq_true, beq_iff_eq] at hopen
    rcases hopen with hmeaning | hlast
    · exact kind_ne_else_of_reduction h hitem hmeaning hstuck
    · obtain ⟨top, htop, hends⟩ := (h.stacked.row hstack).2.2 hlast
      exact h.closed top htop hends

/-- A program is reduced when nothing is left of the input, and takes all of the stack. -/
theorem Progress.accepts
    (h : Progress tokens stack input)
    {rule : Rule}
    (hrule : reduction? (input.head?.map Token.kind) (topItems stack) = some rule)
    (hprogram : rule.category = .program)
    {d : Derivation}
    (hd : (reduce rule stack).1 = d) :
    d.Valid ∧ d.NearestElse ∧ d.symbol = .category .program ∧ d.tokens = tokens := by
  obtain ⟨done, below, hmem, hstack, hsymbols, hends, -⟩ := reduction?_eq_some h hrule
  obtain ⟨hvalid, hnearest, hreduce, -⟩ := h.node hmem hstack hsymbols
  obtain ⟨rfl, rfl⟩ := hends hprogram
  rw [hreduce] at hd
  subst hd
  refine ⟨hvalid, hnearest, congrArg Symbol.category hprogram, ?_⟩
  have htokens := h.tokens
  rw [hstack, List.append_nil, List.append_nil, List.reverse_reverse] at htokens
  exact htokens

/-- Where no token can be shifted, the top of the stack is reduced. -/
theorem run_of_stuck
    (hstuck : ∀ t ∈ input.head?, push? (.leaf t) stack = none)
    (fuel : Nat) :
    run (fuel + 1) stack input =
      (reduction? (input.head?.map Token.kind) (topItems stack)).bind fun rule =>
        if rule.category == .program then
          some (reduce rule stack).1
        else
          (push? (reduce rule stack).1 (reduce rule stack).2).bind fun stack' =>
            run fuel stack' input := by
  cases input
  case' nil => rw [run]
  case' cons t rest => rw [run, hstuck t rfl]
  -- in both cases it is the reduction that decides
  all_goals
    cases reduction? _ (topItems stack) with
    | none => rfl
    | some rule =>
        refine if_congr Iff.rfl rfl ?_
        cases push? (reduce rule stack).1 (reduce rule stack).2 with
        | none => rfl
        | some stack' => rfl

/-- A program that is built derives all tokens. -/
theorem run_sound
    {fuel : Nat}
    (h : Progress tokens stack input)
    {d : Derivation}
    (hrun : run fuel stack input = some d) :
    d.Valid ∧ d.NearestElse ∧ d.symbol = .category .program ∧ d.tokens = tokens := by
  induction fuel generalizing stack input with
  | zero => cases hrun
  | succ fuel ih =>
      by_cases hshift : ∃ t rest stack', input = t :: rest ∧ push? (.leaf t) stack = some stack'
      · obtain ⟨t, rest, stack', rfl, hpush⟩ := hshift
        have hnext : run (fuel + 1) stack (t :: rest) = run fuel stack' rest := by
          rw [run, hpush]
          rfl
        exact ih (h.shift hpush) (hnext ▸ hrun)
      · have hstuck : ∀ t ∈ input.head?, push? (.leaf t) stack = none := by
          intro t ht
          obtain ⟨rest, rfl⟩ := List.head?_eq_some_iff.mp ht
          cases hpush : push? (.leaf t) stack with
          | none => rfl
          | some stack' => exact absurd ⟨t, rest, stack', rfl, hpush⟩ hshift
        rw [run_of_stuck hstuck, Option.bind_eq_some_iff] at hrun
        obtain ⟨rule, hrule, hrun⟩ := hrun
        split at hrun
        · next hprogram => exact h.accepts hrule (eq_of_beq hprogram) (Option.some.inj hrun)
        · obtain ⟨stack', hpush, hrun⟩ := Option.bind_eq_some_iff.mp hrun
          exact ih (h.reduced hrule hstuck hpush) hrun

end Stacks

/--
What is built from tokens is a derivation of a program, its tokens are all of them, and every `else`
in it belongs to the nearest conditional.
-/
theorem derivation?_sound
    {input : List Token}
    {d : Derivation}
    (h : derivation? input = some d) :
    d.Valid ∧ d.NearestElse ∧ d.symbol = .category .program ∧ d.tokens = input :=
  run_sound ⟨.nil, rfl, nofun⟩ h

/-- Tokens from which a program is built are parsed without errors, to the same program. -/
theorem parsed_of_derivation?
    {input : List Token}
    {d : Derivation}
    {program : List Stmt}
    (h : derivation? input = some d)
    (hprogram : d.program? = some program) :
    Parse.ofTokens input = ⟨program, []⟩ := by
  obtain ⟨hvalid, hnearest, hsymbol, htokens⟩ := derivation?_sound h
  have hbuilds : Builds (.category .program) input d.phrase? d.endsOpen :=
    ⟨d, hvalid, hnearest, hsymbol, htokens, rfl, rfl⟩
  have hphrase := Parse.read_of_builds hbuilds
  rw [Derivation.program?_eq_some.mp hprogram] at hphrase
  split at hphrase
  · next herrors =>
      obtain rfl := Phrase.stmts.inj (Option.some.inj hphrase)
      rw [← herrors]
  · cases hphrase

end Grammar
end Lox
