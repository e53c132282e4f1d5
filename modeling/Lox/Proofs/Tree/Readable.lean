import Lox.Proofs.Decimal.Texts
import Lox.Proofs.Token.Spacing
import Lox.Proofs.Tree.Form
import Lox.Proofs.Tree.Written

/-!
# Reading the text of a tree

The text of a tree shows neither node kinds nor kinds of tokens, but they can be told from it: every
group starts with a word that says what it is, and a word is a name, a reserved word, a number or a
string by its first character.  So a text is the text of only one tree, except for two things.  The
lines of the tokens are not written, and a number that is too large for a double is written like a
name, as `inf`.

**Main definitions.**
* `Form.toExpr`, `Form.toStmt`: the tree that a form is read as.
* `Stmt.shape`: a tree without lines, in which infinite numbers are spelled as they are written.

**Results.**
* `Stmt.Written.exists_readAs`: a tree of a text is read back from its own text, up to its shape.
* `programText_eq_iff`: two trees of texts have the same text exactly if they have the same shape.
* `programText_confuses_infinity`: a number and a name with the same text.
-/

namespace Lox

open Grammar

/-- Takes tokens off their lines. -/
def Relabeling.lineless : Relabeling :=
  .lines fun _ => 0

/-- The token that a word in a tree stands for, on no line. -/
def Token.ofText (word : String) : Token :=
  ⟨(fixedTerminals.lookup word).getD .identifier, word, 0⟩

/-- A number that is too large for a double is spelled as the name that is written for it. -/
def Literal.spelled (value : Literal) : Expr :=
  match value with
  | .number x =>
      if Decimal.Reading.ofFloat x = .infinite false then
        .read ⟨Token.ofText Number.layout.infinity, .unresolved⟩
      else
        .literal (.number x)
  | value => .literal value

mutual

/-- An expression without lines, in which infinite numbers are spelled. -/
def Expr.shape : Expr → Expr
  | .literal value => value.spelled
  | .grouping inner => .grouping inner.shape
  | .unary operator operand => .unary (operator.relabel .lineless) operand.shape
  | .binary left operator right =>
      .binary left.shape (operator.relabel .lineless) right.shape
  | .logical left operator right =>
      .logical left.shape (operator.relabel .lineless) right.shape
  | .read target => .read (target.relabel .lineless)
  | .readConstant target => .readConstant (target.relabel .lineless)
  | .assign target value => .assign (target.relabel .lineless) value.shape
  | .call callee closing arguments =>
      .call callee.shape (closing.relabel .lineless) (Expr.shapes arguments)
  | .get object name => .get object.shape (name.relabel .lineless)
  | .set object name value => .set object.shape (name.relabel .lineless) value.shape
  | .this keyword link => .this (keyword.relabel .lineless) link
  | .super keyword method link =>
      .super (keyword.relabel .lineless) (method.relabel .lineless) link

def Expr.shapes : List Expr → List Expr
  | [] => []
  | e :: es => e.shape :: Expr.shapes es

end

mutual

/-- A statement without lines, in which infinite numbers are spelled. -/
def Stmt.shape : Stmt → Stmt
  | .block body => .block (Stmt.shapes body)
  | .funDecl f => .funDecl f.shape
  | .classDecl name parent methods =>
      .classDecl (name.relabel .lineless) (parent.map Expr.shape) (FunctionDecl.shapes methods)
  | .varDecl name initializer => .varDecl (name.relabel .lineless) (initializer.map Expr.shape)
  | .constDecl name initializer => .constDecl (name.relabel .lineless) (initializer.map Expr.shape)
  | .exprStmt e => .exprStmt e.shape
  | .ifStmt condition thenBranch none => .ifStmt condition.shape thenBranch.shape none
  | .ifStmt condition thenBranch (some elseBranch) =>
      .ifStmt condition.shape thenBranch.shape (some elseBranch.shape)
  | .printStmt e => .printStmt e.shape
  | .returnStmt keyword value => .returnStmt (keyword.relabel .lineless) (value.map Expr.shape)
  | .whileStmt condition body => .whileStmt condition.shape body.shape

def Stmt.shapes : List Stmt → List Stmt
  | [] => []
  | s :: ss => s.shape :: Stmt.shapes ss

def FunctionDecl.shape : FunctionDecl → FunctionDecl
  | ⟨name, parameters, body⟩ =>
      ⟨name.relabel .lineless, parameters.map (Token.relabel .lineless), Stmt.shapes body⟩

def FunctionDecl.shapes : List FunctionDecl → List FunctionDecl
  | [] => []
  | f :: fs => f.shape :: FunctionDecl.shapes fs

end

section Tokens

variable {t : Token}

/-- The kind of a token says how it is spelled, if its kind has a fixed text. -/
theorem Token.Proper.lexeme_eq
    (h : t.Proper)
    {word : String}
    (hword : (word, t.kind) ∈ fixedTerminals) :
    t.lexeme = word := by
  have hall : ∀ x ∈ fixedTerminals, x.2 ≠ .identifier ∧ x.2 ≠ .number ∧ x.2 ≠ .string
      ∧ ∀ y ∈ fixedTerminals, y.2 = x.2 → y.1 = x.1 := by decide
  obtain ⟨hidentifier, hnumber, hstring, hsame⟩ := hall _ hword
  cases h with
  | fixed hfixed => exact hsame _ hfixed rfl
  | identifier hkind => exact absurd hkind hidentifier
  | number hkind => exact absurd hkind hnumber
  | string hkind => exact absurd hkind hstring

/-- A token without its line is told from its lexeme. -/
theorem Token.Proper.relabel_lineless
    (h : t.Proper)
    (hnumber : t.kind ≠ .number)
    (hstring : t.kind ≠ .string) :
    t.relabel .lineless = .ofText t.lexeme := by
  have hkind : (fixedTerminals.lookup t.lexeme).getD .identifier = t.kind := by
    cases h with
    | fixed hfixed =>
        have hall : ∀ x ∈ fixedTerminals, fixedTerminals.lookup x.1 = some x.2 := by decide
        rw [hall _ hfixed, Option.getD_some]
    | identifier hkind hword hletters =>
        have hall : ∀ x ∈ fixedTerminals,
            x ∈ reservedWords ∨ x.1.toList.head?.any Segment.isLetter = false := by
          decide
        have hnone : fixedTerminals.lookup t.lexeme = none := by
          obtain ⟨c, rest, htext, hletter, -⟩ := hletters
          refine List.lookup_eq_none_iff.mpr fun x hx => bne_iff_ne.mpr fun hsame => ?_
          rcases hall x hx with hreserved | hother
          · obtain ⟨hfound, hne⟩ := ofWord_of_mem hreserved
            exact hne (hfound.symm.trans (hsame ▸ hword))
          · simp [← hsame, htext, hletter] at hother
        rw [hnone, hkind, Option.getD_none]
    | number hkind => exact absurd hkind hnumber
    | string hkind => exact absurd hkind hstring
  rw [ofText, hkind]
  rfl

/-- The kinds of tokens whose lexemes are words in trees. -/
def isWordKind (kind : TokenKind) : Bool :=
  kind != .number && kind != .string && kind != .leftParen && kind != .rightParen

theorem Token.Proper.isWord
    (h : t.Proper)
    (hkind : isWordKind t.kind = true) :
    Form.IsWord t.lexeme := by
  cases h with
  | fixed hfixed =>
      have hall : (fixedTerminals.all fun x => !isWordKind x.2
          || x.1.toList.all Form.isBare && !x.1.toList.isEmpty) = true := by cbv
      have hbare := List.all_eq_true.mp hall _ hfixed
      simp only [hkind, Bool.not_true, Bool.false_or, Bool.and_eq_true, List.all_eq_true,
        Bool.not_eq_true', List.isEmpty_eq_false_iff] at hbare
      exact .bare hbare.2 hbare.1
  | identifier hkind' hword hletters =>
      obtain ⟨c, rest, htext, hletter, hrest⟩ := hletters
      have hpart : ∀ d ∈ t.lexeme.toList, Segment.isWordPart d = true := by
        rw [htext]
        exact List.forall_mem_cons.mpr ⟨by simp [Segment.isWordPart, hletter], hrest⟩
      refine .bare (by simp [htext]) fun d hd => ?_
      have hd := hpart d hd
      have hne : d ≠ ' ' ∧ d ≠ '(' ∧ d ≠ ')' ∧ d ≠ '"' := by
        refine ⟨?_, ?_, ?_, ?_⟩ <;> rintro rfl <;> exact absurd hd (by decide)
      simp [Form.isBare, hne]
  | number hkind' => simp [hkind', isWordKind] at hkind
  | string hkind' => simp [hkind', isWordKind] at hkind

end Tokens

/-- The number that a text in a tree stands for. -/
noncomputable def Number.ofTreeText (text : String) : Float :=
  Classical.epsilon fun x =>
    (∃ d, Decimal.Reading.ofFloat x = .finite false d) ∧ Number.treeText x = text

/-- The expression that a word stands for, by its first character or the word itself. -/
noncomputable def Expr.ofWord (word : String) : Expr :=
  if word = "nil" then .literal .nil
  else if word = "true" then .literal (.boolean true)
  else if word = "false" then .literal (.boolean false)
  else if word = "this" then .this (Token.ofText "this") .unresolved
  else if word.toList.head? = some '"' then .literal (.string (unquoted word))
  else if word.toList.head?.any Char.isDigit then .literal (.number (Number.ofTreeText word))
  else .read ⟨Token.ofText word, .unresolved⟩

/--
The expression that a group stands for, by its first word and the other parts, which are given as
words and as expressions.
-/
def Expr.ofParts (head : String) (words : List String) (parts : List Expr) : Expr :=
  match head, words, parts with
  | "group", _, [inner] => .grouping inner
  | "=", [name, _], [_, value] => .assign ⟨Token.ofText name, .unresolved⟩ value
  | "call", _, callee :: arguments => .call callee (Token.ofText ")") arguments
  | ".", [_, name], [object, _] => .get object (Token.ofText name)
  | ".=", [_, name, _], [object, _, value] => .set object (Token.ofText name) value
  | "super", [method], _ => .super (Token.ofText "super") (Token.ofText method) .unresolved
  | "and", _, [left, right] => .logical left (Token.ofText "and") right
  | "or", _, [left, right] => .logical left (Token.ofText "or") right
  | operator, _, [left, right] => .binary left (Token.ofText operator) right
  | operator, _, [operand] => .unary (Token.ofText operator) operand
  | _, _, _ => .literal .nil

/-- The function that a statement declares. -/
def Stmt.function? : Stmt → Option FunctionDecl
  | .funDecl f => some f
  | _ => none

/--
The statement that a group stands for, by its first word and the other parts, which are given as
words, as lists of words, as expressions and as statements.
-/
def Stmt.ofParts
    (head : String)
    (words : List String)
    (lists : List (List String))
    (parts : List Expr)
    (stmts : List Stmt) : Stmt :=
  match head, words, lists, parts, stmts with
  | "block", _, _, _, body => .block body
  | "fun", name :: _, _ :: parameters :: _, _, _ :: _ :: body =>
      .funDecl ⟨Token.ofText name, parameters.map Token.ofText, body⟩
  | "class", name :: "<" :: parent :: _, _, _, _ :: _ :: _ :: methods =>
      .classDecl (Token.ofText name) (some (.read ⟨Token.ofText parent, .unresolved⟩))
        (methods.filterMap Stmt.function?)
  | "class", name :: _, _, _, _ :: methods =>
      .classDecl (Token.ofText name) none (methods.filterMap Stmt.function?)
  | "var", name :: _, _, _ :: initializer, _ => .varDecl (Token.ofText name) initializer.head?
  | "const", name :: _, _, _ :: initializer, _ => .constDecl (Token.ofText name) initializer.head?
  | ";", _, _, [e], _ => .exprStmt e
  | "if", _, _, condition :: _, _ :: thenBranch :: elseBranch =>
      .ifStmt condition thenBranch elseBranch.head?
  | "print", _, _, [e], _ => .printStmt e
  | "return", _, _, value, _ => .returnStmt (Token.ofText "return") value.head?
  | "while", _, _, condition :: _, [_, body] => .whileStmt condition body
  | _, _, _, _, _ => .block []

namespace Form

/-- The text of a word; a group has none. -/
def name : Form → String
  | .word w => w
  | .group _ => ""

/-- The words in a group. -/
def names : Form → List String
  | .word _ => []
  | .group parts => parts.map name

mutual

/-- The expression that a form stands for. -/
noncomputable def toExpr : Form → Expr
  | .word w => .ofWord w
  | .group [] => .literal .nil
  | .group (head :: parts) => .ofParts head.name (parts.map name) (toExprs parts)

noncomputable def toExprs : List Form → List Expr
  | [] => []
  | f :: fs => f.toExpr :: toExprs fs

end

mutual

/-- The statement that a form stands for. -/
noncomputable def toStmt : Form → Stmt
  | .word _ => .block []
  | .group [] => .block []
  | .group (head :: parts) =>
      .ofParts head.name (parts.map name) (parts.map names) (toExprs parts) (toStmts parts)

noncomputable def toStmts : List Form → List Stmt
  | [] => []
  | f :: fs => f.toStmt :: toStmts fs

end

end Form

/-- A form is the text of an expression, and the expression is read back from it. -/
structure Expr.ReadAs (e : Expr) (f : Form) : Prop where
  legible : f.Legible
  text : f.text = e.text
  expr : f.toExpr = e.shape
  shape : e.shape.text = e.text

/-- A form is the text of a statement, and the statement is read back from it. -/
structure Stmt.ReadAs (s : Stmt) (f : Form) : Prop where
  legible : f.Legible
  text : f.text = s.text
  stmt : f.toStmt = s.shape
  shape : s.shape.text = s.text

namespace Token.Stands

variable {kinds : List TokenKind} {t : Token}

theorem isWord
    (h : t.Stands kinds)
    (hkinds : ∀ kind ∈ kinds, isWordKind kind = true) :
    Form.IsWord t.lexeme :=
  h.proper.isWord (hkinds _ h.kind)

theorem relabel_lineless
    (h : t.Stands kinds)
    (hkinds : ∀ kind ∈ kinds, kind ≠ .number ∧ kind ≠ .string) :
    t.relabel .lineless = .ofText t.lexeme :=
  h.proper.relabel_lineless (hkinds _ h.kind).1 (hkinds _ h.kind).2

theorem isWord_of_identifier (h : t.Stands [.identifier]) : Form.IsWord t.lexeme :=
  h.isWord (by decide)

theorem relabel_of_identifier (h : t.Stands [.identifier]) :
    t.relabel .lineless = .ofText t.lexeme :=
  h.relabel_lineless (by decide)

/-- A token of kinds with fixed texts is spelled as one of these texts. -/
theorem lexeme_mem
    (h : t.Stands kinds)
    (spellings : List String)
    (hspellings : ∀ kind ∈ kinds, ∃ word ∈ spellings, (word, kind) ∈ fixedTerminals) :
    t.lexeme ∈ spellings := by
  obtain ⟨word, hword, hfixed⟩ := hspellings _ h.kind
  exact h.proper.lexeme_eq hfixed ▸ hword

/-- A name is read as a name. -/
theorem ofWord_eq (h : t.Stands [.identifier]) :
    Expr.ofWord t.lexeme = .read ⟨t.relabel .lineless, .unresolved⟩ := by
  have hkind : t.kind = .identifier := List.mem_singleton.mp h.kind
  rw [h.relabel_of_identifier]
  cases h.proper with
  | fixed hfixed => exact absurd hkind (fixed_ne_identifier hfixed)
  | number hother => rw [hother] at hkind; cases hkind
  | string hother => rw [hother] at hkind; cases hkind
  | identifier _ hword hletters =>
      obtain ⟨c, rest, htext, hletter, -⟩ := hletters
      have hne {word : String} (hreserved : TokenKind.ofWord word ≠ .identifier) :
          t.lexeme ≠ word := fun hsame => hreserved (hsame ▸ hword)
      have hquote : c ≠ '"' := by
        rintro rfl
        exact absurd hletter (by decide)
      have hdigit : c.isDigit = false := by
        by_contra hdigit
        have hsame : Segment.isDigit c = true := by
          simpa [Char.isDigit, Segment.isDigit, Char.le_def] using hdigit
        rw [isLetter_of_isDigit hsame] at hletter
        cases hletter
      unfold Expr.ofWord
      rw [if_neg (hne (by decide)), if_neg (hne (by decide)), if_neg (hne (by decide)),
        if_neg (hne (by decide)), htext]
      simp [hquote, hdigit]

end Token.Stands

/-- A number that is not too large is read back from its text. -/
theorem Number.ofTreeText_treeText
    {x : Float}
    {d : Decimal.Dyadic}
    (hx : Decimal.Reading.ofFloat x = .finite false d) :
    Number.ofTreeText (Number.treeText x) = x := by
  obtain ⟨⟨d', hd'⟩, hsame⟩ := Classical.epsilon_spec (p := fun y =>
    (∃ d, Decimal.Reading.ofFloat y = .finite false d) ∧ Number.treeText y = Number.treeText x)
    ⟨x, ⟨d, hx⟩, rfl⟩
  exact Number.eq_of_treeText_eq hd' hx hsame

/-- A text of a number is no other word. -/
theorem Expr.ofWord_of_numeral
    {word : String}
    (h : Number.Numeral word.toList) :
    Expr.ofWord word = .literal (.number (Number.ofTreeText word)) := by
  obtain ⟨⟨c, hc, hdigit⟩, -⟩ := h
  have hne {other : String} (hother : other.toList.head?.any Char.isDigit = false) :
      word ≠ other := by
    rintro rfl
    rw [Option.mem_def.mp hc] at hother
    simp [hdigit] at hother
  have hquote : ¬ word.toList.head? = some '"' := by
    rw [Option.mem_def.mp hc]
    rintro ⟨⟩
    cases hdigit
  have hfirst : word.toList.head?.any Char.isDigit = true := by
    rw [Option.mem_def.mp hc]
    exact hdigit
  unfold ofWord
  rw [if_neg (hne (by decide)), if_neg (hne (by decide)), if_neg (hne (by decide)),
    if_neg (hne (by decide)), if_neg hquote, if_pos hfirst]

/-- A text of a number is a word. -/
theorem Number.Numeral.isWord
    {word : String}
    (h : Number.Numeral word.toList) :
    Form.IsWord word := by
  obtain ⟨⟨c, hc, -⟩, hall⟩ := h
  refine .bare (List.ne_nil_of_mem (List.mem_of_mem_head? hc)) fun d hd => ?_
  have hne : d ≠ ' ' ∧ d ≠ '(' ∧ d ≠ ')' ∧ d ≠ '"' := by
    refine ⟨?_, ?_, ?_, ?_⟩ <;> rintro rfl <;> exact absurd (hall _ hd) (by decide)
  simp [Form.isBare, hne]

/-- A value that is written is read back. -/
theorem Literal.Written.readAs
    {value : Literal}
    (h : value.Written) :
    (Expr.literal value).ReadAs (.word value.text) := by
  cases h with
  | nil => exact ⟨.word (.bare (by decide) (by simp [Literal.text, Form.isBare])), rfl, rfl, rfl⟩
  | boolean b =>
      cases b with
      | true =>
          exact ⟨.word (.bare (by decide) (by simp [Literal.text, Form.isBare])), rfl, rfl, rfl⟩
      | false =>
          exact ⟨.word (.bare (by decide) (by simp [Literal.text, Form.isBare])), rfl, rfl, rfl⟩
  | @number x hmagnitude =>
      rcases hmagnitude.ofFloat with hinfinite | ⟨d, hfinite⟩
      · have htext : Number.treeText x = "inf" := Number.treeText_of_infinite hinfinite
        refine ⟨.word ?_, rfl, ?_, ?_⟩
        · rw [Literal.text, htext]
          exact .bare (by decide) (by simp [Form.isBare])
        · rw [Expr.shape, Literal.spelled, if_pos hinfinite, Literal.text, htext]
          rfl
        · rw [Expr.shape, Literal.spelled, if_pos hinfinite, Expr.text, Literal.text, htext]
          rfl
      · have hnumeral := Number.numeral_treeText hfinite
        have hne : ¬ Decimal.Reading.ofFloat x = .infinite false := by simp [hfinite]
        refine ⟨.word hnumeral.isWord, rfl, ?_, ?_⟩
        · rw [Expr.shape, Literal.spelled, if_neg hne, Form.toExpr, Literal.text,
            Expr.ofWord_of_numeral hnumeral, Number.ofTreeText_treeText hfinite]
        · rw [Expr.shape, Literal.spelled, if_neg hne]
  | @string value hinside =>
      have htext : (Literal.string value).text.toList = '"' :: (value.toList ++ ['"']) := by
        simp [Literal.text]
      refine ⟨.word (.quoted htext hinside), rfl, ?_, rfl⟩
      have hne {other : String} (hother : other.toList.head? ≠ some '"') :
          (Literal.string value).text ≠ other := by
        rintro rfl
        simp [htext] at hother
      have hvalue : unquoted (Literal.string value).text = value := by
        simp [unquoted, htext]
      rw [Form.toExpr, Expr.ofWord, if_neg (hne (by decide)), if_neg (hne (by decide)),
        if_neg (hne (by decide)), if_neg (hne (by decide)), if_pos (by rw [htext]; rfl), hvalue]
      rfl

section Operators

variable {operator : Token}

/-- An operator with one operand is read back. -/
theorem Expr.ofParts_unary
    (h : operator.Stands unaryKinds)
    (word : String)
    (operand : Expr) :
    Expr.ofParts operator.lexeme [word] [operand] =
      .unary (operator.relabel .lineless) operand := by
  have hlexeme := h.lexeme_mem ["!", "-"] (by decide)
  rw [h.relabel_lineless (by decide)]
  generalize operator.lexeme = lexeme at hlexeme
  simp only [List.mem_cons, List.not_mem_nil, or_false] at hlexeme
  rcases hlexeme with rfl | rfl <;> rfl

/-- An operator with two operands is read back. -/
theorem Expr.ofParts_binary
    (h : operator.Stands binaryKinds)
    (word word' : String)
    (left right : Expr) :
    Expr.ofParts operator.lexeme [word, word'] [left, right] =
      .binary left (operator.relabel .lineless) right := by
  have hlexeme := h.lexeme_mem ["!=", "==", ">", ">=", "<", "<=", "-", "+", "/", "*"] (by decide)
  rw [h.relabel_lineless (by decide)]
  generalize operator.lexeme = lexeme at hlexeme
  simp only [List.mem_cons, List.not_mem_nil, or_false] at hlexeme
  rcases hlexeme with rfl | rfl | rfl | rfl | rfl | rfl | rfl | rfl | rfl | rfl <;> rfl

/-- A logical operator is read back. -/
theorem Expr.ofParts_logical
    (h : operator.Stands logicalKinds)
    (word word' : String)
    (left right : Expr) :
    Expr.ofParts operator.lexeme [word, word'] [left, right] =
      .logical left (operator.relabel .lineless) right := by
  have hlexeme := h.lexeme_mem ["and", "or"] (by decide)
  rw [h.relabel_lineless (by decide)]
  generalize operator.lexeme = lexeme at hlexeme
  simp only [List.mem_cons, List.not_mem_nil, or_false] at hlexeme
  rcases hlexeme with rfl | rfl <;> rfl

end Operators

/-- Expressions that are read back one by one are read back as a list. -/
theorem Expr.exists_readAs_all
    {es : List Expr}
    (h : ∀ e ∈ es, ∃ f, e.ReadAs f) :
    ∃ fs, (∀ f ∈ fs, Form.Legible f) ∧ Form.texts fs = Expr.texts es
      ∧ Form.toExprs fs = Expr.shapes es ∧ Expr.texts (Expr.shapes es) = Expr.texts es := by
  induction es with
  | nil => exact ⟨[], by simp, rfl, rfl, rfl⟩
  | cons e es ih =>
      obtain ⟨⟨f, hf⟩, hes⟩ := List.forall_mem_cons.mp h
      obtain ⟨fs, hlegible, htexts, hexprs, hshapes⟩ := ih hes
      refine ⟨f :: fs, List.forall_mem_cons.mpr ⟨hf.legible, hlegible⟩, ?_, ?_, ?_⟩
      · rw [Form.texts, Expr.texts, hf.text, htexts]
      · rw [Form.toExprs, Expr.shapes, hf.expr, hexprs]
      · rw [Expr.shapes, Expr.texts, Expr.texts, hf.shape, hshapes]

theorem Form.legible_group
    {head : String}
    {parts : List Form}
    (hhead : Form.IsWord head)
    (hparts : ∀ f ∈ parts, f.Legible) :
    (Form.group (.word head :: parts)).Legible :=
  .group (List.forall_mem_cons.mpr ⟨.word hhead, hparts⟩)

/-- The words that groups of expressions and statements start with, other than operators. -/
def headWords : List String :=
  ["group", "=", "call", ".", ".=", "super", "block", "fun", "class", "<", "var", "const", ";",
    "if", "print", "return", "while"]

theorem Form.isWord_of_headWord
    {w : String}
    (h : w ∈ headWords) :
    Form.IsWord w := by
  have hall : (headWords.all fun w => !w.toList.isEmpty && w.toList.all isBare) = true := by cbv
  have hw := List.all_eq_true.mp hall w h
  simp only [Bool.and_eq_true, Bool.not_eq_true', List.isEmpty_eq_false_iff, List.all_eq_true] at hw
  exact .bare hw.1 hw.2

theorem Form.legible_of_headWord
    {w : String}
    (hw : w ∈ headWords)
    {parts : List Form}
    (hparts : ∀ f ∈ parts, f.Legible) :
    (Form.group (.word w :: parts)).Legible :=
  legible_group (isWord_of_headWord hw) hparts

/-- An operator and two operands are read back if the operator says which node it makes of them. -/
theorem Expr.exists_readAs_operation
    (node : Expr → Token → Expr → Expr)
    (htext : ∀ left operator right,
      (node left operator right).text = parenthesized [operator.lexeme, left.text, right.text])
    (hshape : ∀ left operator right,
      (node left operator right).shape = node left.shape (operator.relabel .lineless) right.shape)
    {operator : Token}
    (hword : Form.IsWord operator.lexeme)
    (hparts : ∀ word word' left right, Expr.ofParts operator.lexeme [word, word'] [left, right] =
      node left (operator.relabel .lineless) right)
    {left right : Expr}
    (hleft : ∃ f, left.ReadAs f)
    (hright : ∃ f, right.ReadAs f) :
    ∃ f, (node left operator right).ReadAs f := by
  obtain ⟨f, hf⟩ := hleft
  obtain ⟨g, hg⟩ := hright
  refine ⟨.group [.word operator.lexeme, f, g], ?_, ?_, ?_, ?_⟩
  · exact Form.legible_group hword (by simpa using ⟨hf.legible, hg.legible⟩)
  · rw [htext, ← hf.text, ← hg.text]
    rfl
  · rw [hshape, ← hf.expr, ← hg.expr, ← hparts f.name g.name]
    rfl
  · rw [hshape, htext, htext, hf.shape, hg.shape, Token.lexeme_relabel]

/-- An expression of a text is read back from its own text. -/
theorem Expr.Written.exists_readAs
    {e : Expr}
    (h : e.Written) :
    ∃ f, e.ReadAs f := by
  induction h with
  | literal hvalue => exact ⟨_, hvalue.readAs⟩
  | grouping hinner ih =>
      obtain ⟨f, hf⟩ := ih
      refine ⟨.group [.word "group", f], ?_, ?_, ?_, ?_⟩
      · exact Form.legible_of_headWord (by decide) (by simpa using hf.legible)
      · rw [Expr.text, ← hf.text]
        rfl
      · rw [Expr.shape, ← hf.expr]
        rfl
      · rw [Expr.shape, Expr.text, Expr.text, hf.shape]
  | @unary operator operand hoperator hoperand ih =>
      obtain ⟨f, hf⟩ := ih
      refine ⟨.group [.word operator.lexeme, f], ?_, ?_, ?_, ?_⟩
      · exact Form.legible_group (hoperator.isWord (by decide)) (by simpa using hf.legible)
      · rw [Expr.text, ← hf.text]
        rfl
      · rw [Expr.shape, ← hf.expr, ← Expr.ofParts_unary hoperator f.name]
        rfl
      · rw [Expr.shape, Expr.text, Expr.text, hf.shape, Token.lexeme_relabel]
  | binary _ hoperator _ ihleft ihright =>
      exact Expr.exists_readAs_operation .binary (fun _ _ _ => rfl) (fun _ _ _ => rfl)
        (hoperator.isWord (by decide)) (Expr.ofParts_binary hoperator) ihleft ihright
  | logical _ hoperator _ ihleft ihright =>
      exact Expr.exists_readAs_operation .logical (fun _ _ _ => rfl) (fun _ _ _ => rfl)
        (hoperator.isWord (by decide)) (Expr.ofParts_logical hoperator) ihleft ihright
  | read hname =>
      exact ⟨.word _, .word hname.isWord_of_identifier, rfl, hname.ofWord_eq, rfl⟩
  | @assign name value hname hvalue ih =>
      obtain ⟨f, hf⟩ := ih
      refine ⟨.group [.word "=", .word name.lexeme, f], ?_, ?_, ?_, ?_⟩
      · exact Form.legible_of_headWord (by decide)
          (by simpa using ⟨.word hname.isWord_of_identifier, hf.legible⟩)
      · rw [Expr.text, ← hf.text]
        rfl
      · rw [Expr.shape, ← hf.expr, Reference.relabel, hname.relabel_of_identifier]
        rfl
      · rw [Expr.shape, Expr.text, Expr.text, hf.shape]
        rfl
  | @call callee closing arguments hcallee hclosing harguments ihcallee iharguments =>
      obtain ⟨f, hf⟩ := ihcallee
      obtain ⟨fs, hlegible, htexts, hexprs, hshapes⟩ := Expr.exists_readAs_all iharguments
      have hlexeme : closing.lexeme = ")" := by
        simpa using hclosing.lexeme_mem [")"] (by decide)
      refine ⟨.group (.word "call" :: f :: fs), ?_, ?_, ?_, ?_⟩
      · exact Form.legible_of_headWord (by decide)
          (List.forall_mem_cons.mpr ⟨hf.legible, hlegible⟩)
      · rw [Expr.text, ← hf.text, ← htexts]
        rfl
      · rw [Expr.shape, ← hf.expr, ← hexprs, hclosing.relabel_lineless (by decide), hlexeme]
        rfl
      · rw [Expr.shape, Expr.text, Expr.text, hf.shape, hshapes]
  | @get object name hobject hname ih =>
      obtain ⟨f, hf⟩ := ih
      refine ⟨.group [.word ".", f, .word name.lexeme], ?_, ?_, ?_, ?_⟩
      · exact Form.legible_of_headWord (by decide)
          (by simpa using ⟨hf.legible, .word hname.isWord_of_identifier⟩)
      · rw [Expr.text, ← hf.text]
        rfl
      · rw [Expr.shape, ← hf.expr, hname.relabel_of_identifier]
        rfl
      · rw [Expr.shape, Expr.text, Expr.text, hf.shape, Token.lexeme_relabel]
  | @set object value name hobject hname hvalue ihobject ihvalue =>
      obtain ⟨f, hf⟩ := ihobject
      obtain ⟨g, hg⟩ := ihvalue
      refine ⟨.group [.word ".=", f, .word name.lexeme, g], ?_, ?_, ?_, ?_⟩
      · exact Form.legible_of_headWord (by decide)
          (by simpa using ⟨hf.legible, .word hname.isWord_of_identifier, hg.legible⟩)
      · rw [Expr.text, ← hf.text, ← hg.text]
        rfl
      · rw [Expr.shape, ← hf.expr, ← hg.expr, hname.relabel_of_identifier]
        rfl
      · rw [Expr.shape, Expr.text, Expr.text, hf.shape, hg.shape, Token.lexeme_relabel]
  | @this keyword hkeyword =>
      have hlexeme : keyword.lexeme = "this" := by
        simpa using hkeyword.lexeme_mem ["this"] (by decide)
      refine ⟨.word "this", .word ?_, rfl, ?_, rfl⟩
      · exact hlexeme ▸ hkeyword.isWord (by decide)
      · rw [Expr.shape, hkeyword.relabel_lineless (by decide), hlexeme]
        rfl
  | @super keyword method hkeyword hmethod =>
      have hlexeme : keyword.lexeme = "super" := by
        simpa using hkeyword.lexeme_mem ["super"] (by decide)
      refine ⟨.group [.word "super", .word method.lexeme], ?_, rfl, ?_, rfl⟩
      · exact Form.legible_of_headWord (by decide)
          (by simpa using .word hmethod.isWord_of_identifier)
      · rw [Expr.shape, hkeyword.relabel_lineless (by decide), hlexeme,
          hmethod.relabel_of_identifier]
        rfl

/-- Statements that are read back one by one are read back as a list. -/
theorem Stmt.exists_readAs_all
    {ss : List Stmt}
    (h : ∀ s ∈ ss, ∃ f, s.ReadAs f) :
    ∃ fs, (∀ f ∈ fs, Form.Legible f) ∧ Form.texts fs = Stmt.texts ss
      ∧ Form.toStmts fs = Stmt.shapes ss ∧ Stmt.texts (Stmt.shapes ss) = Stmt.texts ss := by
  induction ss with
  | nil => exact ⟨[], by simp, rfl, rfl, rfl⟩
  | cons s ss ih =>
      obtain ⟨⟨f, hf⟩, hss⟩ := List.forall_mem_cons.mp h
      obtain ⟨fs, hlegible, htexts, hstmts, hshapes⟩ := ih hss
      refine ⟨f :: fs, List.forall_mem_cons.mpr ⟨hf.legible, hlegible⟩, ?_, ?_, ?_⟩
      · rw [Form.texts, Stmt.texts, hf.text, htexts]
      · rw [Form.toStmts, Stmt.shapes, hf.stmt, hstmts]
      · rw [Stmt.shapes, Stmt.texts, Stmt.texts, hf.shape, hshapes]

/-- Functions that are read back one by one are read back as a list of methods. -/
theorem FunctionDecl.exists_readAs_all
    {methods : List FunctionDecl}
    (h : ∀ m ∈ methods, ∃ f, (Stmt.funDecl m).ReadAs f) :
    ∃ fs, (∀ f ∈ fs, Form.Legible f) ∧ Form.texts fs = FunctionDecl.texts methods
      ∧ (Form.toStmts fs).filterMap Stmt.function? = FunctionDecl.shapes methods
      ∧ FunctionDecl.texts (FunctionDecl.shapes methods) = FunctionDecl.texts methods
      ∧ ∀ f ∈ fs, f.name = "" := by
  induction methods with
  | nil => exact ⟨[], by simp, rfl, rfl, rfl, by simp⟩
  | cons m methods ih =>
      obtain ⟨⟨f, hf⟩, hmethods⟩ := List.forall_mem_cons.mp h
      obtain ⟨fs, hlegible, htexts, hstmts, hshapes, hnames⟩ := ih hmethods
      have hname : f.name = "" := by
        cases f with
        | word w => cases hf.stmt
        | group parts => rfl
      have htext : f.text = m.text := hf.text
      have hshape : m.shape.text = m.text := hf.shape
      refine ⟨f :: fs, List.forall_mem_cons.mpr ⟨hf.legible, hlegible⟩, ?_, ?_, ?_,
        List.forall_mem_cons.mpr ⟨hname, hnames⟩⟩
      · rw [Form.texts, FunctionDecl.texts, htext, htexts]
      · have hfunction : Stmt.function? (Stmt.funDecl m).shape = some m.shape := rfl
        rw [Form.toStmts, FunctionDecl.shapes, hf.stmt, List.filterMap_cons_some hfunction, hstmts]
      · rw [FunctionDecl.shapes, FunctionDecl.texts, FunctionDecl.texts, hshape, hshapes]

/-- Names in parentheses are read back. -/
theorem Form.names_group
    {names : List Token}
    (h : ∀ name ∈ names, name.Stands [.identifier]) :
    (Form.group (names.map fun name => .word name.lexeme)).Legible
      ∧ Form.texts (names.map fun name => .word name.lexeme) = names.map Token.lexeme
      ∧ ((Form.group (names.map fun name => .word name.lexeme)).names.map Token.ofText) =
        names.map (Token.relabel .lineless) := by
  refine ⟨.group ?_, ?_, ?_⟩
  · intro f hf
    obtain ⟨name, hname, rfl⟩ := List.mem_map.mp hf
    exact .word (h name hname).isWord_of_identifier
  · simp [Function.comp_def, Form.text]
  · simp only [Form.names, List.map_map]
    exact List.map_congr_left fun name hname => (h name hname).relabel_of_identifier.symm

/-- An expression that may be absent is read back as a list. -/
theorem Expr.exists_readAs_option
    {e : Option Expr}
    (h : ∀ e' ∈ e, e'.Written) :
    ∃ fs, (∀ f ∈ fs, Form.Legible f) ∧ Form.texts fs = (e.map Expr.text).toList
      ∧ (Form.toExprs fs).head? = e.map Expr.shape
      ∧ (e.map Expr.shape).map Expr.text = e.map Expr.text := by
  cases e with
  | none => exact ⟨[], by simp, rfl, rfl, rfl⟩
  | some e =>
      obtain ⟨f, hf⟩ := (h e rfl).exists_readAs
      exact ⟨[f], by simpa using hf.legible, by simp [Form.texts, hf.text],
        by simp [Form.toExprs, hf.expr], by simp [hf.shape]⟩

/-- A word and an expression are read back. -/
theorem Stmt.exists_readAs_worded
    (word : String)
    (hword : word ∈ headWords)
    (node : Expr → Stmt)
    (htext : ∀ e, (node e).text = parenthesized [word, e.text])
    (hshape : ∀ e, (node e).shape = node e.shape)
    (hparts : ∀ words lists e stmts, Stmt.ofParts word words lists [e] stmts = node e)
    {e : Expr}
    (he : e.Written) :
    ∃ f, (node e).ReadAs f := by
  obtain ⟨f, hf⟩ := he.exists_readAs
  refine ⟨.group [.word word, f], Form.legible_of_headWord hword (by simpa using hf.legible),
    ?_, ?_, ?_⟩
  · rw [htext, ← hf.text]
    rfl
  · rw [hshape, ← hf.expr]
    exact hparts _ _ _ _
  · rw [hshape, htext, htext, hf.shape]

/-- The declaration of a variable or of a constant is read back. -/
theorem Stmt.exists_readAs_declaration
    (word : String)
    (hword : word ∈ headWords)
    (node : Token → Option Expr → Stmt)
    (htext : ∀ name initializer, (node name initializer).text =
      declarationText word name initializer)
    (hshape : ∀ name initializer,
      (node name initializer).shape = node (name.relabel .lineless) (initializer.map Expr.shape))
    (hparts : ∀ name words lists e parts stmts,
      Stmt.ofParts word (name :: words) lists (e :: parts) stmts = node (.ofText name) parts.head?)
    {name : Token}
    (hname : name.Stands [.identifier])
    {initializer : Option Expr}
    (hinitializer : ∀ e ∈ initializer, e.Written) :
    ∃ f, (node name initializer).ReadAs f := by
  obtain ⟨fs, hlegible, htexts, hexprs, hsame⟩ := Expr.exists_readAs_option hinitializer
  refine ⟨.group (.word word :: .word name.lexeme :: fs), Form.legible_of_headWord hword
    (List.forall_mem_cons.mpr ⟨.word hname.isWord_of_identifier, hlegible⟩), ?_, ?_, ?_⟩
  · rw [htext, declarationText, ← htexts]
    rfl
  · rw [hshape, ← hexprs, hname.relabel_of_identifier]
    exact hparts _ _ _ _ _ _
  · rw [hshape, htext, htext, declarationText, declarationText, hsame, Token.lexeme_relabel]

/-- A function is read back if the statements of its body are. -/
theorem Stmt.exists_readAs_funDecl
    {name : Token}
    (hname : name.Stands [.identifier])
    {parameters : List Token}
    (hparameters : ∀ p ∈ parameters, p.Stands [.identifier])
    {body : List Stmt}
    (hbody : ∀ s ∈ body, ∃ f, s.ReadAs f) :
    ∃ f, (Stmt.funDecl ⟨name, parameters, body⟩).ReadAs f := by
  obtain ⟨fs, hlegible, htexts, hstmts, hshapes⟩ := Stmt.exists_readAs_all hbody
  obtain ⟨hgroup, hlexemes, hnames⟩ := Form.names_group hparameters
  refine ⟨.group (.word "fun" :: .word name.lexeme
      :: .group (parameters.map fun p => .word p.lexeme) :: fs),
    Form.legible_of_headWord (by decide) ?_, ?_, ?_, ?_⟩
  · exact List.forall_mem_cons.mpr ⟨.word hname.isWord_of_identifier,
      List.forall_mem_cons.mpr ⟨hgroup, hlegible⟩⟩
  · rw [Stmt.text, FunctionDecl.text, ← htexts, ← hlexemes]
    rfl
  · rw [Stmt.shape, FunctionDecl.shape, ← hstmts, ← hnames, hname.relabel_of_identifier]
    rfl
  · rw [Stmt.shape, FunctionDecl.shape, Stmt.text, Stmt.text, FunctionDecl.text,
      FunctionDecl.text, hshapes, Token.lexeme_relabel, Token.map_lexeme_relabel]

section Classes

variable
  {name : Token}
  (hname : name.Stands [.identifier])
  {methods : List FunctionDecl}
  (hmethods : ∀ m ∈ methods, ∃ f, (Stmt.funDecl m).ReadAs f)
include hname hmethods

/-- A class without a superclass is read back: its first method is no superclass. -/
theorem Stmt.exists_readAs_baseClass :
    ∃ f, (Stmt.classDecl name none methods).ReadAs f := by
  obtain ⟨fs, hlegible, htexts, hstmts, hshapes, hnames⟩ := FunctionDecl.exists_readAs_all hmethods
  refine ⟨.group (.word "class" :: .word name.lexeme :: fs), Form.legible_of_headWord (by decide)
    (List.forall_mem_cons.mpr ⟨.word hname.isWord_of_identifier, hlegible⟩), ?_, ?_, ?_⟩
  · rw [Stmt.text, ← htexts]
    rfl
  · rw [Stmt.shape, ← hstmts, hname.relabel_of_identifier]
    cases fs with
    | nil => rfl
    | cons f fs =>
        rw [Form.toStmt, List.map_cons, List.map_cons, hnames f List.mem_cons_self]
        cases fs <;> rfl
  · rw [Stmt.shape, Option.map_none, Stmt.text, Stmt.text, hshapes, Token.lexeme_relabel]

/-- A class with a superclass is read back. -/
theorem Stmt.exists_readAs_subclass
    {parent : Token}
    (hparent : parent.Stands [.identifier]) :
    ∃ f, (Stmt.classDecl name (some (.read ⟨parent, .unresolved⟩)) methods).ReadAs f := by
  obtain ⟨fs, hlegible, htexts, hstmts, hshapes, -⟩ := FunctionDecl.exists_readAs_all hmethods
  refine ⟨.group (.word "class" :: .word name.lexeme :: .word "<" :: .word parent.lexeme :: fs),
    Form.legible_of_headWord (by decide) ?_, ?_, ?_, ?_⟩
  · exact List.forall_mem_cons.mpr ⟨.word hname.isWord_of_identifier, List.forall_mem_cons.mpr
      ⟨.word (Form.isWord_of_headWord (by decide)),
        List.forall_mem_cons.mpr ⟨.word hparent.isWord_of_identifier, hlegible⟩⟩⟩
  · rw [Stmt.text, ← htexts]
    rfl
  · rw [Stmt.shape, ← hstmts, hname.relabel_of_identifier, Option.map_some, Expr.shape,
      Reference.relabel, hparent.relabel_of_identifier]
    rfl
  · rw [Stmt.shape, Option.map_some, Stmt.text, Stmt.text, hshapes, Token.lexeme_relabel]
    rfl

end Classes

/-- A statement of a text is read back from its own text. -/
theorem Stmt.Written.exists_readAs
    {s : Stmt}
    (h : s.Written) :
    ∃ f, s.ReadAs f := by
  induction h with
  | @block body hbody ih =>
      obtain ⟨fs, hlegible, htexts, hstmts, hshapes⟩ := Stmt.exists_readAs_all ih
      refine ⟨.group (.word "block" :: fs), Form.legible_of_headWord (by decide) hlegible,
        ?_, ?_, ?_⟩
      · rw [Stmt.text, ← htexts]
        rfl
      · rw [Stmt.shape, ← hstmts]
        rfl
      · rw [Stmt.shape, Stmt.text, Stmt.text, hshapes]
  | funDecl hname hparameters _ ih => exact Stmt.exists_readAs_funDecl hname hparameters ih
  | @classDecl _ parent _ hname hparent _ ih =>
      cases parent with
      | none => exact Stmt.exists_readAs_baseClass hname ih
      | some parent => exact Stmt.exists_readAs_subclass hname ih (hparent parent rfl)
  | varDecl hname hinitializer =>
      exact Stmt.exists_readAs_declaration "var" (by decide) .varDecl (fun _ _ => rfl)
        (fun _ _ => rfl) (fun _ _ _ _ _ _ => rfl) hname hinitializer
  | constDecl hname hinitializer =>
      exact Stmt.exists_readAs_declaration "const" (by decide) .constDecl (fun _ _ => rfl)
        (fun _ _ => rfl) (fun _ _ _ _ _ _ => rfl) hname hinitializer
  | exprStmt he =>
      exact Stmt.exists_readAs_worded ";" (by decide) .exprStmt (fun _ => rfl) (fun _ => rfl)
        (fun _ _ _ _ => rfl) he
  | @ifStmt condition thenBranch elseBranch hcondition hthen helse ihthen ihelse =>
      obtain ⟨f, hf⟩ := hcondition.exists_readAs
      obtain ⟨g, hg⟩ := ihthen
      cases elseBranch with
      | none =>
          refine ⟨.group [.word "if", f, g], Form.legible_of_headWord (by decide)
            (by simpa using ⟨hf.legible, hg.legible⟩), ?_, ?_, ?_⟩
          · rw [Stmt.text, ← hf.text, ← hg.text]
            rfl
          · rw [Stmt.shape, ← hf.expr, ← hg.stmt]
            rfl
          · rw [Stmt.shape, Stmt.text, Stmt.text, hf.shape, hg.shape]
      | some elseBranch =>
          obtain ⟨k, hk⟩ := ihelse elseBranch rfl
          refine ⟨.group [.word "if", f, g, k], Form.legible_of_headWord (by decide)
            (by simpa using ⟨hf.legible, hg.legible, hk.legible⟩), ?_, ?_, ?_⟩
          · rw [Stmt.text, ← hf.text, ← hg.text, ← hk.text]
            rfl
          · rw [Stmt.shape, ← hf.expr, ← hg.stmt, ← hk.stmt]
            rfl
          · rw [Stmt.shape, Stmt.text, Stmt.text, hf.shape, hg.shape, hk.shape]
  | printStmt he =>
      exact Stmt.exists_readAs_worded "print" (by decide) .printStmt (fun _ => rfl) (fun _ => rfl)
        (fun _ _ _ _ => rfl) he
  | @returnStmt keyword value hkeyword hvalue =>
      obtain ⟨fs, hlegible, htexts, hexprs, hshape⟩ := Expr.exists_readAs_option hvalue
      have hlexeme : keyword.lexeme = "return" := by
        simpa using hkeyword.lexeme_mem ["return"] (by decide)
      refine ⟨.group (.word "return" :: fs), Form.legible_of_headWord (by decide) hlegible,
        ?_, ?_, ?_⟩
      · rw [Stmt.text, ← htexts]
        rfl
      · rw [Stmt.shape, ← hexprs, hkeyword.relabel_lineless (by decide), hlexeme]
        rfl
      · rw [Stmt.shape, Stmt.text, Stmt.text, hshape]
  | @whileStmt condition body hcondition hbody ih =>
      obtain ⟨f, hf⟩ := hcondition.exists_readAs
      obtain ⟨g, hg⟩ := ih
      refine ⟨.group [.word "while", f, g], Form.legible_of_headWord (by decide)
        (by simpa using ⟨hf.legible, hg.legible⟩), ?_, ?_, ?_⟩
      · rw [Stmt.text, ← hf.text, ← hg.text]
        rfl
      · rw [Stmt.shape, ← hf.expr, ← hg.stmt]
        rfl
      · rw [Stmt.shape, Stmt.text, Stmt.text, hf.shape, hg.shape]

/-- The trees of two texts have the same text exactly if they have the same shape. -/
theorem Stmt.Written.texts_eq_iff
    {program program' : List Stmt}
    (h : ∀ s ∈ program, s.Written)
    (h' : ∀ s ∈ program', s.Written) :
    programText program = programText program' ↔ Stmt.shapes program = Stmt.shapes program' := by
  obtain ⟨fs, hlegible, htexts, hstmts, hshapes⟩ :=
    Stmt.exists_readAs_all fun s hs => (h s hs).exists_readAs
  obtain ⟨fs', hlegible', htexts', hstmts', hshapes'⟩ :=
    Stmt.exists_readAs_all fun s hs => (h' s hs).exists_readAs
  constructor
  · intro hsame
    rw [programText, programText, ← htexts, ← htexts'] at hsame
    rw [← hstmts, ← hstmts', Form.eq_of_spaced_eq hlegible hlegible' hsame]
  · intro hsame
    rw [programText, programText, ← hshapes, ← hshapes', hsame]

/--
Two texts that are parsed without errors have trees with the same text exactly if the trees are the
same but for the lines of the tokens and for infinite numbers, which are written like a name.
-/
theorem programText_eq_iff
    {source source' : String}
    (hparse : (Parse.ofTokens (scan source).tokens).errors = [])
    (hparse' : (Parse.ofTokens (scan source').tokens).errors = []) :
    programText (Parse.ofTokens (scan source).tokens).statements =
        programText (Parse.ofTokens (scan source').tokens).statements
      ↔ Stmt.shapes (Parse.ofTokens (scan source).tokens).statements =
        Stmt.shapes (Parse.ofTokens (scan source').tokens).statements :=
  Stmt.Written.texts_eq_iff (Parse.written_within (fun _ => scan_proper) hparse)
    (Parse.written_within (fun _ => scan_proper) hparse')

/-- A text on one line and on two lines. -/
theorem programText_eq_iff_other_line :
    (Parse.ofTokens (scan "a = \"b c\";").tokens).errors = []
      ∧ (Parse.ofTokens (scan "a=\n\"b c\";").tokens).errors = []
      ∧ Stmt.shapes (Parse.ofTokens (scan "a = \"b c\";").tokens).statements =
        Stmt.shapes (Parse.ofTokens (scan "a=\n\"b c\";").tokens).statements := by
  have h : (Parse.ofTokens (scan "a = \"b c\";").tokens).errors = [] := by cbv
  have h' : (Parse.ofTokens (scan "a=\n\"b c\";").tokens).errors = [] := by cbv
  refine ⟨h, h', (programText_eq_iff h h').mp ?_⟩
  cbv

/-- The tree of a text that consists of many nines. -/
theorem statements_of_nines (n : Nat) :
    Parse.ofTokens (scan (String.ofList ('9' :: List.replicate n '9') ++ ";")).tokens =
      ⟨[.exprStmt (.literal (.number (Number.ofDecimal ('9' :: List.replicate n '9'))))], []⟩ := by
  have hextent : Segment.numberExtent (List.replicate n '9' ++ [';']) =
      (List.replicate n '9').length + fractionExtent [';'] :=
    numberExtent_append (fun c hc => List.eq_of_mem_replicate hc ▸ rfl) (by simp; decide)
  have hstart : Segment.start '9' (List.replicate n '9' ++ [';']) =
      (.token .number, (List.replicate n '9').length) := congrArg (Prod.mk _) hextent
  obtain ⟨line, hnumber⟩ := Segment.splitFrom_of_start hstart 1
  have hstart' : Segment.start ';' ([] ++ []) = (.token .semicolon, ([] : List Char).length) := rfl
  obtain ⟨line', hsemicolon⟩ := Segment.splitFrom_of_start hstart' line
  rw [Segment.splitFrom_nil, List.nil_append] at hsemicolon
  have htext : (String.ofList ('9' :: List.replicate n '9') ++ ";").toList =
      '9' :: (List.replicate n '9' ++ [';']) := by simp
  have htokens : (scan (String.ofList ('9' :: List.replicate n '9') ++ ";")).tokens =
      [⟨.number, String.ofList ('9' :: List.replicate n '9'), line⟩, ⟨.semicolon, ";", line'⟩] := by
    simp only [scan, Scan.ofList, Segment.split, htext, hnumber, hsemicolon]
    rfl
  have hvalue (w : String) : Parse.ofTokens [⟨.number, w, line⟩, ⟨.semicolon, ";", line'⟩] =
      ⟨[.exprStmt (.literal (.number (Number.ofDecimal w.toList)))], []⟩ := rfl
  rw [htokens, hvalue, String.toList_ofList]

/-- A number that is too large for a double is written like a name. -/
theorem programText_confuses_infinity :
    let number := Parse.ofTokens
      (scan (String.ofList ('9' :: List.replicate 309 '9') ++ ";")).tokens
    let name := Parse.ofTokens (scan "inf;").tokens
    number.errors = [] ∧ name.errors = []
      ∧ programText number.statements = programText name.statements
      ∧ number.statements.map (Stmt.relabel .lineless) ≠
        name.statements.map (Stmt.relabel .lineless) := by
  have hinfinite : Decimal.Reading.ofFloat (Number.ofDecimal ('9' :: List.replicate 309 '9')) =
      .infinite false := by decide +kernel
  have hname : Parse.ofTokens (scan "inf;").tokens =
      ⟨[.exprStmt (.read ⟨⟨.identifier, "inf", 1⟩, .unresolved⟩)], []⟩ := by cbv
  rw [statements_of_nines, hname]
  refine ⟨rfl, rfl, ?_, ?_⟩
  · have htext := Number.treeText_of_infinite hinfinite
    simp only [programText, Stmt.texts, Stmt.text, Expr.text, Literal.text, htext]
    rfl
  · intro h
    cases h

end Lox
