import Lox.Prompt.Basic
import Lox.Proofs.Prompt.Comments

/-!
# Programs at the prompt

The prompt looks at a line before the language does.  A line that is neither blank nor rejected is
submitted as it is, unless it opens with a comment: such a line starts with a slash, so it is
answered as an unknown command and submitted to nothing.  It names no command, for another slash
stands behind the first one, and as a line of input it would have done nothing.

**Main definitions.**
* `Prompt.IsProgram`: the lines that are not blank and compile.
* `Prompt.repliesTo`: the replies to such lines.
* `Prompt.leftBy`: the prompt after some lines.

**Result.**
* `Prompt.converse_programs`: the prompt on lines that are programs.
-/

namespace Lox
namespace Machine

/-- A program without statements only puts the printed texts aside. -/
theorem runProgram_nil
    (limits : Limits)
    (m : Machine) :
    m.runProgram limits [] = (.finished, { m with printed := #[] }) :=
  rfl

/-- The texts that were printed before do not matter to a program. -/
theorem runProgram_emptied
    (limits : Limits)
    (program : List Stmt)
    (m : Machine) :
    ({ m with printed := #[] } : Machine).runProgram limits program = m.runProgram limits program :=
  rfl

end Machine

namespace Session

/-- The session with the printed texts put aside. -/
def emptied (s : Session) : Session :=
  ⟨{ s.machine with printed := #[] }⟩

/-- Texts do the same when the printed texts have been put aside. -/
theorem run_emptied
    {s s' : Session}
    (h : s.emptied = s'.emptied)
    (limits : Limits)
    (source : String) :
    (s.run limits source).1 = (s'.run limits source).1
      ∧ (s.run limits source).2.emptied = (s'.run limits source).2.emptied := by
  have hmachine : ({ s.machine with printed := #[] } : Machine) =
      { s'.machine with printed := #[] } := congrArg machine h
  unfold run
  cases compile limits source with
  | error diagnostics => exact ⟨rfl, h⟩
  | ok program =>
      have hrun : s.machine.runProgram limits program = s'.machine.runProgram limits program := by
        rw [← Machine.runProgram_emptied, hmachine, Machine.runProgram_emptied]
      dsimp only
      rw [hrun]
      exact ⟨rfl, rfl⟩

theorem runAll_emptied
    {s s' : Session}
    (h : s.emptied = s'.emptied)
    (submissions : List Submission) :
    (runAll submissions s).emptied = (runAll submissions s').emptied := by
  induction submissions generalizing s s' with
  | nil => exact h
  | cons x rest ih => exact ih (run_emptied h x.limits x.source).2

end Session

namespace Prompt

/-- The text as which a line is submitted. -/
def textOf (line : String) : String :=
  String.ofList (normalize line)

/-- The line is not blank, and on its own it is accepted. -/
structure IsProgram
    (limits : Limits)
    (line : String) : Prop where
  visible : Text.trim (normalize line) ≠ []
  compiles : ∃ program, compile limits (textOf line) = .ok program

/-- Behind the white space, the line starts with two slashes. -/
def opensWithComment (line : String) : Bool :=
  ['/', '/'].isPrefixOf (Text.trim (normalize line))

/-- The first word of a line. -/
def firstWordOf (line : String) : String :=
  String.ofList (Text.firstWord (Text.trim (normalize line))).1

/-- The replies to lines that are programs, up to the end of the input. -/
def repliesTo (limits : Limits) (tracing : Bool) : List String → Session → List Reply
  | [], _ => [farewell]
  | line :: rest, s =>
      if opensWithComment line then
        .complained ("Unknown command: " ++ firstWordOf line) :: repliesTo limits tracing rest s
      else
        let result := s.run limits (textOf line)
        result.1.reply tracing :: repliesTo limits tracing rest result.2

/-- The prompt after it has read lines up to a blank one or to the end. -/
def leftBy (limits : Limits) : List String → Prompt → Prompt
  | [], p => p
  | line :: rest, p =>
      match p.answer limits line with
      | none => p
      | some (_, next) => leftBy limits rest next

/-- The submission of a line. -/
def submissionOf (limits : Limits) (line : String) : Session.Submission :=
  ⟨limits, textOf line⟩

section Lines

variable
  {limits : Limits}
  {line : String}

/-- No command is named by two slashes. -/
theorem ofName?_eq_none
    (rest : List Char) :
    Command.ofName? (String.ofList ('/' :: '/' :: rest)) = none := by
  refine List.find?_eq_none.mpr fun command _ heq => ?_
  have hsecond : command.name.toList[1]? ≠ some '/' := by cases command <;> decide
  rw [eq_of_beq heq, String.toList_ofList] at hsecond
  exact hsecond rfl

theorem trim_of_opensWithComment
    (h : opensWithComment line = true) :
    ∃ rest, Text.trim (normalize line) = '/' :: '/' :: rest := by
  obtain ⟨rest, hrest⟩ := List.isPrefixOf_iff_prefix.mp h
  exact ⟨rest, hrest.symm⟩

/-- A program that starts with a slash opens with a comment. -/
theorem IsProgram.opensWithComment
    (h : IsProgram limits line)
    {rest : List Char}
    (hslash : Text.trim (normalize line) = '/' :: rest) :
    opensWithComment line = true := by
  obtain ⟨program, hcompile⟩ := h.compiles
  obtain ⟨blanks, htrim, hblanks⟩ := Text.trimStart_eq_trim_append (normalize line)
  rw [hslash] at htrim
  have hsecond : (rest ++ blanks).head? = some '/' := compile_opens_with_comment hcompile (by
    rw [textOf, String.toList_ofList, htrim, List.cons_append])
  rw [Prompt.opensWithComment, hslash]
  cases rest with
  | nil =>
      -- The second slash cannot be white space at the end of the line.
      have hblank := hblanks '/' (List.mem_of_mem_head? hsecond)
      exact absurd hblank (by decide)
  | cons c rest =>
      obtain rfl : c = '/' := by simpa using hsecond
      simp [List.isPrefixOf]

/-- A line that opens with a comment is answered as an unknown command. -/
theorem answer_comment
    (h : opensWithComment line = true)
    (p : Prompt) :
    p.answer limits line = some (.complained ("Unknown command: " ++ firstWordOf line), p) := by
  obtain ⟨rest, hrest⟩ := trim_of_opensWithComment h
  have hword : (Text.firstWord (Text.trim (normalize line))).1 =
      '/' :: '/' :: rest.takeWhile (!Text.isBlank ·) := by
    rw [hrest]
    rfl
  have hname : Command.ofName? (firstWordOf line) = none := by
    rw [firstWordOf, hword]
    exact ofName?_eq_none _
  have hsplit : Command.split? (normalize line) =
      some (firstWordOf line, String.ofList (Text.firstWord (Text.trim (normalize line))).2) := by
    rw [Command.split?, if_pos (by rw [hrest]; rfl), firstWordOf]
  simp only [answer, hrest, List.isEmpty_cons, Bool.false_eq_true, if_false, hsplit, obey, hname]

/-- Any other program is submitted. -/
theorem IsProgram.answer
    (h : IsProgram limits line)
    (hplain : Prompt.opensWithComment line = false)
    (p : Prompt) :
    p.answer limits line = some (p.submit limits (textOf line)) := by
  have hvisible : (Text.trim (normalize line)).isEmpty = false := by
    simpa [List.isEmpty_iff] using h.visible
  have hsplit : Command.split? (normalize line) = none := by
    rw [Command.split?, if_neg]
    intro hslash
    cases htrim : Text.trim (normalize line) with
    | nil => simp [htrim] at hslash
    | cons c rest =>
        obtain rfl : c = '/' := by simpa [htrim] using hslash
        rw [h.opensWithComment htrim] at hplain
        cases hplain
  simp only [Prompt.answer, hvisible, Bool.false_eq_true, if_false, hsplit, textOf]

/-- A line of input that opens with a comment would do nothing if it were submitted. -/
theorem IsProgram.run_comment
    (h : IsProgram limits line)
    (hcomment : Prompt.opensWithComment line = true)
    (hline : '\n' ∉ line.toList)
    (s : Session) :
    s.run limits (textOf line) = (.ran [] .finished, s.emptied) := by
  obtain ⟨program, hcompile⟩ := h.compiles
  obtain ⟨rest, hrest⟩ := trim_of_opensWithComment hcomment
  obtain ⟨blanks, htrim, -⟩ := Text.trimStart_eq_trim_append (normalize line)
  have htext : (textOf line).toList = normalize line := String.toList_ofList
  have hnone : program = [] := by
    refine @statementsOf_comment _ _ _ hcompile (rest ++ blanks) ?_ ?_
    · rw [htext, htrim, hrest, List.cons_append, List.cons_append]
    · rw [htext, normalize]
      exact fun hmem => hline (List.mem_of_mem_filter hmem)
  rw [Session.run, hcompile, hnone]
  dsimp only
  rw [Machine.runProgram_nil]
  rfl

end Lines

section Conversation

variable
  {limits : Limits}
  {lines : List String}

theorem converseOnto_programs
    (h : ∀ line ∈ lines, IsProgram limits line)
    (replies : List Reply)
    (p : Prompt) :
    converseOnto limits replies lines p =
      ⟨replies.reverse ++ repliesTo limits p.tracing lines p.session, []⟩ := by
  induction lines generalizing replies p with
  | nil => simp [converseOnto, repliesTo]
  | cons line rest ih =>
      obtain ⟨hline, hrest⟩ := List.forall_mem_cons.mp h
      rw [converseOnto, repliesTo]
      cases hcomment : opensWithComment line with
      | true =>
          rw [answer_comment hcomment]
          simp [ih hrest]
      | false =>
          rw [hline.answer hcomment]
          simp [submit, ih hrest]

/-- Lines that are programs are submitted in order, but for those that open with a comment. -/
theorem leftBy_programs
    (h : ∀ line ∈ lines, IsProgram limits line)
    (p : Prompt) :
    leftBy limits lines p =
      ⟨Session.runAll ((lines.filter (!opensWithComment ·)).map (submissionOf limits)) p.session,
        p.tracing⟩ := by
  induction lines generalizing p with
  | nil => rfl
  | cons line rest ih =>
      obtain ⟨hline, hrest⟩ := List.forall_mem_cons.mp h
      rw [leftBy]
      cases hcomment : opensWithComment line with
      | true => simpa [answer_comment hcomment, hcomment] using ih hrest p
      | false =>
          simpa [hline.answer hcomment, hcomment, Session.runAll, submissionOf, submit] using
            ih hrest (p.submit limits (textOf line)).2

/-- To the session it does not matter whether lines that open with a comment are submitted. -/
theorem runAll_comments
    (h : ∀ line ∈ lines, IsProgram limits line)
    (hlines : ∀ line ∈ lines, '\n' ∉ line.toList)
    (s : Session) :
    (Session.runAll ((lines.filter (!opensWithComment ·)).map (submissionOf limits)) s).emptied =
      (Session.runAll (lines.map (submissionOf limits)) s).emptied := by
  induction lines generalizing s with
  | nil => rfl
  | cons line rest ih =>
      obtain ⟨hline, hrest⟩ := List.forall_mem_cons.mp h
      obtain ⟨hsingle, hsingles⟩ := List.forall_mem_cons.mp hlines
      cases hcomment : opensWithComment line with
      | true =>
          have hrun := hline.run_comment hcomment hsingle s
          simp only [List.filter_cons, hcomment, Bool.not_true, Bool.false_eq_true, if_false,
            List.map_cons]
          rw [ih hrest hsingles s, Session.runAll, Session.runAll, List.foldl_cons, submissionOf,
            hrun]
          have hemptied : s.emptied = s.emptied.emptied := rfl
          exact Session.runAll_emptied hemptied _
      | false =>
          simp only [List.filter_cons, hcomment, Bool.not_false, if_true, List.map_cons]
          exact ih hrest hsingles (s.run limits (textOf line)).2

/--
The prompt on lines that are programs.  All of them are read.  Those that open with a comment are
answered as unknown commands, and all others are submitted in order, so the prompt replies as the
session does.  It is left with the session that has run the submitted lines; and with the globals of
the session that has run all lines, as long as no line goes on behind a line break.
-/
theorem converse_programs
    (limits : Limits)
    (lines : List String)
    (h : ∀ line ∈ lines, IsProgram limits line)
    (p : Prompt) :
    converse limits lines p = ⟨repliesTo limits p.tracing lines p.session, []⟩
      ∧ leftBy limits lines p =
        ⟨Session.runAll ((lines.filter (!opensWithComment ·)).map (submissionOf limits)) p.session,
          p.tracing⟩
      ∧ ((∀ line ∈ lines, '\n' ∉ line.toList) →
        (leftBy limits lines p).session.machine.globals =
          (Session.runAll (lines.map (submissionOf limits)) p.session).machine.globals) := by
  refine ⟨converseOnto_programs h [] p, leftBy_programs h p, fun hlines => ?_⟩
  rw [leftBy_programs h p]
  have hglobals := congrArg (fun s : Session => s.machine.globals)
    (runAll_comments h hlines p.session)
  exact hglobals

/-- A program and a comment: the first is run, and the second is taken for a command. -/
theorem converse_programs_comment :
    converse ⟨20, 20, 20, 20⟩ ["print nil;", "// hi"] ⟨Session.start [], false⟩ =
      ⟨[.said "nil", .complained "Unknown command: //", farewell], []⟩ := by
  have hprint : IsProgram ⟨20, 20, 20, 20⟩ "print nil;" := ⟨by decide, _, by cbv⟩
  have hcomment : IsProgram ⟨20, 20, 20, 20⟩ "// hi" := ⟨by decide, _, by cbv⟩
  have h : ∀ line ∈ ["print nil;", "// hi"], IsProgram ⟨20, 20, 20, 20⟩ line := by
    simp [hprint, hcomment]
  have hplain : opensWithComment "print nil;" = false := by decide
  have hopens : opensWithComment "// hi" = true := by decide
  have hword : firstWordOf "// hi" = "//" := by decide
  have hrun : ((Session.start []).run ⟨20, 20, 20, 20⟩ (textOf "print nil;")).1 =
      .ran ["nil"] .finished := by cbv
  have hconverse := (converse_programs ⟨20, 20, 20, 20⟩ _ h ⟨Session.start [], false⟩).1
  simp only [repliesTo, hplain, hopens, hword, hrun, Bool.false_eq_true, if_false, if_true]
    at hconverse
  exact hconverse

end Conversation

end Prompt
end Lox
