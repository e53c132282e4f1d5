import Lox.Prompt.Tables
import Lox.Proofs.Session.Rejected

/-!
# A reset forgets everything

The session of a prompt gathers names, constants, closures, classes, links in tables and the marks
of errors.  After a reset nothing of this can be told any more: whatever lines follow, the prompt
replies as a new one does whose clock goes on where the old one stands and whose switch for traces
has the same position.

The tables start anew as well, but the numbers of references go on, so the two prompts are not
equal. They are alike: once links are looked up, they hold the same.

**Main definition.**
* `TablePrompt.Alike`: prompts that hold the same once links are looked up.

**Results.**
* `TablePrompt.converse_plain`: a prompt with tables replies as one that keeps links in the trees.
* `TablePrompt.Alike.converse`: prompts that are alike reply alike.
* `TablePrompt.reset_forgets`: the prompt after a reset.
-/

namespace Lox
namespace Prompt

theorem converseOnto_eq
    (limits : Limits)
    (replies : List Reply)
    (lines : List String)
    (p : Prompt) :
    converseOnto limits replies lines p =
      ⟨replies.reverse ++ (converse limits lines p).replies, (converse limits lines p).unread⟩ := by
  induction lines generalizing replies p with
  | nil => simp [converse, converseOnto]
  | cons line rest ih =>
      unfold converse converseOnto
      cases p.answer limits line with
      | none => simp
      | some answered => simp [ih (answered.1 :: replies), ih [answered.1]]

/-- The reply to the first line stands before the replies to the others. -/
theorem converse_cons
    (limits : Limits)
    (line : String)
    (rest : List String)
    (p : Prompt) :
    converse limits (line :: rest) p =
      match p.answer limits line with
      | none => ⟨[.nothing], rest⟩
      | some (reply, next) =>
          ⟨reply :: (converse limits rest next).replies, (converse limits rest next).unread⟩ := by
  conv_lhs => rw [converse, converseOnto]
  cases p.answer limits line with
  | none => rfl
  | some answered => simp [converseOnto_eq limits [answered.1]]

end Prompt

namespace TablePrompt

/-- The prompt with all links looked up. -/
def plain (p : TablePrompt) : Prompt :=
  ⟨p.session.lookedUp, p.tracing⟩

/-- What the last text has left: whether it was rejected, and whether an error has stopped it. -/
def marks (p : TablePrompt) : Bool × Bool :=
  (p.hadError, p.hadRuntimeError)

/--
Two prompts hold the same once links are looked up, and the last texts have left the same marks.
-/
structure Alike (p q : TablePrompt) : Prop where
  left : p.session.Fresh
  right : q.session.Fresh
  plain : p.plain = q.plain
  marks : p.marks = q.marks

/-- A session that goes on with the numbers of another one is as new as any. -/
theorem fresh_reset (p : TablePrompt) : p.reset.session.Fresh where
  tables _ _ := rfl
  machine := Machine.relabel_initial _ _

theorem plain_reset (p : TablePrompt) :
    p.reset.plain = ⟨Session.start p.session.machine.clock, p.tracing⟩ :=
  congrArg (Prompt.mk · p.tracing) (TableSession.lookedUp_start p.session.machine.clock)

theorem plain_start (clock : List Float) (tracing : Bool) :
    (start clock tracing).plain = ⟨Session.start clock, tracing⟩ :=
  congrArg (Prompt.mk · tracing) (TableSession.lookedUp_start clock)

/-- After a reset the prompt is like a new one. -/
theorem alike_reset (p : TablePrompt) :
    Alike p.reset (start p.session.machine.clock p.tracing) where
  left := fresh_reset p
  right := TableSession.fresh_start _
  plain := (plain_reset p).trans (plain_start _ _).symm
  marks := rfl

section Lines

variable
  (reached : List Stmt → Nat)
  (limits : Limits)
  {p q : TablePrompt}

/-- The switch for traces has nothing to do with the session. -/
theorem switchTracing_plain (p : TablePrompt) (argument : String) :
    p.plain.switchTracing argument =
      ((p.switchTracing argument).1, (p.switchTracing argument).2.plain) := by
  unfold TablePrompt.switchTracing Prompt.switchTracing TablePrompt.plain
  cases SwitchRequest.ofArgument? argument <;> rfl

/-- A command does the same to both kinds of prompt. -/
theorem obey_plain (h : p.session.Fresh) (name argument : String) :
    (p.obey name argument).2.session.Fresh
      ∧ p.plain.obey name argument =
        ((p.obey name argument).1, (p.obey name argument).2.plain) := by
  unfold TablePrompt.obey Prompt.obey
  cases Command.ofName? name with
  | none => exact ⟨h, rfl⟩
  | some command =>
      cases command with
      | clear => exact ⟨h, rfl⟩
      | tracing => exact ⟨h, switchTracing_plain p argument⟩
      | reset => exact ⟨fresh_reset p, by rw [plain_reset]; rfl⟩

/-- A text does the same to both kinds of prompt. -/
theorem submit_plain (h : p.session.Fresh) (source : String) :
    (p.submit reached limits source).2.session.Fresh
      ∧ p.plain.submit limits source =
        ((p.submit reached limits source).1, (p.submit reached limits source).2.plain) := by
  obtain ⟨hfresh, hrun⟩ := TableSession.run_lookedUp h reached limits source
  refine ⟨hfresh, ?_⟩
  simp only [Prompt.submit, TablePrompt.submit, TablePrompt.plain, hrun]

/-- A line gets the same answer from both kinds of prompt. -/
theorem answer_plain (h : p.session.Fresh) (line : String) :
    (∀ answered ∈ p.answer reached limits line, answered.2.session.Fresh)
      ∧ p.plain.answer limits line =
        (p.answer reached limits line).map fun answered => (answered.1, answered.2.plain) := by
  unfold TablePrompt.answer Prompt.answer
  dsimp only
  split
  · exact ⟨nofun, rfl⟩
  · cases Command.split? (Prompt.normalize line) with
    | some command =>
        obtain ⟨hfresh, hobey⟩ := obey_plain h command.1 command.2
        exact ⟨by rintro _ ⟨⟩; exact hfresh, congrArg some hobey⟩
    | none =>
        obtain ⟨hfresh, hsubmit⟩ := submit_plain reached limits h
          (String.ofList (Prompt.normalize line))
        exact ⟨by rintro _ ⟨⟩; exact hfresh, congrArg some hsubmit⟩

/-- Lines get the same replies from both kinds of prompt. -/
theorem converse_plain (h : p.session.Fresh) (lines : List String) :
    Prompt.converse limits lines p.plain = p.converse reached limits lines := by
  induction lines generalizing p with
  | nil => rfl
  | cons line rest ih =>
      obtain ⟨hfresh, hanswer⟩ := answer_plain reached limits h line
      rw [Prompt.converse_cons, hanswer, TablePrompt.converse]
      cases hline : p.answer reached limits line with
      | none => rfl
      | some answered =>
          dsimp only [Option.map_some]
          rw [ih (hfresh answered hline)]

/-- A text gets the same reply from prompts that are alike, and they stay alike. -/
theorem Alike.submit (h : Alike p q) (source : String) :
    (p.submit reached limits source).1 = (q.submit reached limits source).1
      ∧ Alike (p.submit reached limits source).2 (q.submit reached limits source).2 := by
  obtain ⟨hp, hplainP⟩ := submit_plain reached limits h.left source
  obtain ⟨hq, hplainQ⟩ := submit_plain reached limits h.right source
  obtain ⟨hreply, hplain⟩ := Prod.mk.inj (hplainP.symm.trans (h.plain ▸ hplainQ))
  have hlookedUp : p.session.lookedUp = q.session.lookedUp := congrArg Prompt.session h.plain
  have houtcome : (p.session.run reached limits source).1 =
      (q.session.run reached limits source).1 := by
    have hrun := (TableSession.run_lookedUp h.left reached limits source).2
    rw [hlookedUp, (TableSession.run_lookedUp h.right reached limits source).2] at hrun
    exact (congrArg Prod.fst hrun).symm
  have hmarks := congrArg (fun o : Outcome => (o.report.hadError, o.report.hadRuntimeError))
    houtcome
  exact ⟨hreply, hp, hq, hplain, hmarks⟩

/-- So does a command. -/
theorem Alike.obey (h : Alike p q) (name argument : String) :
    (p.obey name argument).1 = (q.obey name argument).1
      ∧ Alike (p.obey name argument).2 (q.obey name argument).2 := by
  obtain ⟨hp, hplainP⟩ := obey_plain h.left name argument
  obtain ⟨hq, hplainQ⟩ := obey_plain h.right name argument
  obtain ⟨hreply, hplain⟩ := Prod.mk.inj (hplainP.symm.trans (h.plain ▸ hplainQ))
  refine ⟨hreply, hp, hq, hplain, ?_⟩
  unfold TablePrompt.obey
  cases Command.ofName? name with
  | none => exact h.marks
  | some command =>
      cases command with
      | clear => exact h.marks
      | tracing => exact h.marks
      | reset => rfl

/-- A line ends both prompts, or gets the same answer from both. -/
theorem Alike.answer (h : Alike p q) (line : String) :
    (p.answer reached limits line = none ∧ q.answer reached limits line = none)
      ∨ ∃ reply p' q', p.answer reached limits line = some (reply, p')
          ∧ q.answer reached limits line = some (reply, q') ∧ Alike p' q' := by
  unfold TablePrompt.answer
  dsimp only
  split
  · exact .inl ⟨rfl, rfl⟩
  · right
    cases Command.split? (Prompt.normalize line) with
    | some command =>
        obtain ⟨hreply, halike⟩ := h.obey command.1 command.2
        exact ⟨_, _, _, rfl, congrArg (fun reply => some (reply, _)) hreply.symm, halike⟩
    | none =>
        obtain ⟨hreply, halike⟩ := h.submit reached limits
          (String.ofList (Prompt.normalize line))
        exact ⟨_, _, _, rfl, congrArg (fun reply => some (reply, _)) hreply.symm, halike⟩

/-- Prompts that are alike reply alike, and they stay alike. -/
theorem Alike.converse (h : Alike p q) (lines : List String) :
    p.converse reached limits lines = q.converse reached limits lines
      ∧ Alike (p.leftBy reached limits lines) (q.leftBy reached limits lines) := by
  induction lines generalizing p q with
  | nil => exact ⟨rfl, h⟩
  | cons line rest ih =>
      unfold TablePrompt.converse TablePrompt.leftBy
      rcases h.answer reached limits line with
        ⟨hp, hq⟩ | ⟨reply, p', q', hp, hq, halike⟩
      · rw [hp, hq]
        exact ⟨rfl, h⟩
      · rw [hp, hq]
        obtain ⟨hsame, hleft⟩ := ih halike
        exact ⟨by dsimp only; rw [hsame], hleft⟩

/-- A line that is not blank gets an answer. -/
theorem exists_answer
    {line : String}
    (hline : Text.trim (Prompt.normalize line) ≠ [])
    (p : TablePrompt) :
    ∃ reply next, p.answer reached limits line = some (reply, next) := by
  unfold TablePrompt.answer
  dsimp only
  rw [if_neg (by simpa using hline)]
  cases Command.split? (Prompt.normalize line) <;> exact ⟨_, _, rfl⟩

/--
Lines that are not blank get one reply each, and the prompt goes on with the lines after them.
-/
theorem converse_append
    {before : List String}
    (hbefore : ∀ line ∈ before, Text.trim (Prompt.normalize line) ≠ [])
    (p : TablePrompt) :
    ∃ said : List Reply, said.length = before.length
      ∧ ∀ after,
        p.converse reached limits (before ++ after) =
            ⟨said ++ ((p.leftBy reached limits before).converse reached limits after).replies,
              ((p.leftBy reached limits before).converse reached limits after).unread⟩
          ∧ p.leftBy reached limits (before ++ after) =
            (p.leftBy reached limits before).leftBy reached limits after := by
  induction before generalizing p with
  | nil => exact ⟨[], rfl, fun after => ⟨rfl, rfl⟩⟩
  | cons line rest ih =>
      obtain ⟨hline, hrest⟩ := List.forall_mem_cons.mp hbefore
      obtain ⟨reply, next, hanswer⟩ := exists_answer reached limits hline p
      obtain ⟨said, hlength, hsaid⟩ := ih hrest next
      refine ⟨reply :: said, congrArg (· + 1) hlength, fun after => ?_⟩
      obtain ⟨hreplies, hleft⟩ := hsaid after
      simp only [List.cons_append, TablePrompt.converse, TablePrompt.leftBy, hanswer, hreplies,
        hleft, and_self]

/-- A line whose first mark is a slash is a command. -/
theorem answer_eq_obey
    {line : String}
    (name argument : String)
    (hline : Text.trim (Prompt.normalize line) ≠ [])
    (hcommand : Command.split? (Prompt.normalize line) = some (name, argument))
    (p : TablePrompt) :
    p.answer reached limits line = some (p.obey name argument) := by
  unfold TablePrompt.answer
  dsimp only
  rw [if_neg (by simpa using hline), hcommand]

/-- Any other line is submitted, without its invisible characters. -/
theorem answer_eq_submit
    {line : String}
    (hline : Text.trim (Prompt.normalize line) ≠ [])
    (hcommand : Command.split? (Prompt.normalize line) = none)
    (p : TablePrompt) :
    p.answer reached limits line =
      some (p.submit reached limits (String.ofList (Prompt.normalize line))) := by
  unfold TablePrompt.answer
  dsimp only
  rw [if_neg (by simpa using hline), hcommand]

theorem answer_reset (p : TablePrompt) :
    p.answer reached limits "/reset" = some (.said "Environment reset.", p.reset) := by
  have hname : Command.ofName? "/reset" = some .reset := by decide
  rw [answer_eq_obey _ _ "/reset" "" (by decide) (by decide), obey, hname]

end Lines

/--
A prompt reads lines none of which is blank, then `/reset`, and then any other lines.  Each line
before gets a reply, and so does the reset.  Whatever follows gets the replies, and leaves unread
the lines, of a new prompt whose clock goes on where the first one stood before the reset, with the
switch for traces in the same position.  The two prompts go on holding the same: the marks of
errors, the switch, and all that a session holds once links are looked up.  The replies are also
those of a prompt that keeps links in the trees.
-/
theorem reset_forgets
    (reached : List Stmt → Nat)
    (limits : Limits)
    (clock : List Float)
    (tracing : Bool)
    {before : List String}
    (hbefore : ∀ line ∈ before, Text.trim (Prompt.normalize line) ≠ []) :
    let p := start clock tracing
    let left := p.leftBy reached limits before
    let fresh := start left.session.machine.clock left.tracing
    ∃ said : List Reply, said.length = before.length
      ∧ ∀ after,
        let dialogue := p.converse reached limits (before ++ "/reset" :: after)
        let anew := fresh.converse reached limits after
        let heldAfter := p.leftBy reached limits (before ++ "/reset" :: after)
        let heldAnew := fresh.leftBy reached limits after
        dialogue = ⟨said ++ .said "Environment reset." :: anew.replies, anew.unread⟩
          ∧ heldAfter.marks = heldAnew.marks
          ∧ heldAfter.plain = heldAnew.plain
          ∧ dialogue =
            Prompt.converse limits (before ++ "/reset" :: after) ⟨Session.start clock, tracing⟩
          ∧ anew =
            Prompt.converse limits after
              ⟨Session.start left.session.machine.clock, left.tracing⟩ := by
  intro p left fresh
  obtain ⟨said, hlength, hsaid⟩ := converse_append reached limits hbefore p
  refine ⟨said, hlength, fun after => ?_⟩
  obtain ⟨hreplies, hleft⟩ := hsaid ("/reset" :: after)
  obtain ⟨hsame, halike⟩ :=
    (alike_reset left).converse reached limits after
  have hconverse : left.converse reached limits ("/reset" :: after) =
      ⟨.said "Environment reset." :: (fresh.converse reached limits after).replies,
        (fresh.converse reached limits after).unread⟩ := by
    rw [TablePrompt.converse, answer_reset]
    dsimp only
    rw [hsame]
  have hleftReset : left.leftBy reached limits ("/reset" :: after) =
      left.reset.leftBy reached limits after := by
    rw [TablePrompt.leftBy, answer_reset]
  refine ⟨?_, ?_, ?_, ?_, ?_⟩
  · rw [hreplies, hconverse]
  · rw [hleft, hleftReset]
    exact halike.marks
  · rw [hleft, hleftReset]
    exact halike.plain
  · rw [← plain_start, converse_plain reached limits (TableSession.fresh_start clock)]
  · rw [← plain_start, converse_plain reached limits (TableSession.fresh_start _)]

/--
Before the reset a constant was bound, a text was rejected after resolution had written into the
tables, traces were turned on, and an error has stopped a text.  Only the switch and the clock are
left.
-/
theorem reset_forgets_constant :
    let limits : Limits := ⟨20, 20, 20, 20⟩
    let before := ["const a = clock();", "\x7b var b; b; return; \x7d",
      "/py-traceback on", "a = nil;"]
    let left := (start [1, 2, 3] false).leftBy Stmt.sizeAll limits before
    (∀ line ∈ before, Text.trim (Prompt.normalize line) ≠ [])
      ∧ left.marks = (false, true)
      ∧ left.tracing = true
      ∧ left.session.tables = ⟨[(1, 0)], []⟩
      ∧ left.session.machine.clock = [2, 3]
      ∧ ∃ said : List Reply, said.length = 4
        ∧ ((start [1, 2, 3] false).converse Stmt.sizeAll limits
            (before ++ "/reset" :: ["a = nil;"])).replies =
          said ++ [.said "Environment reset.",
            (Outcome.ran [] (.failed ⟨.undefinedVariable "a", some 1⟩)).reply true,
            Prompt.farewell] := by
  intro limits before left
  have hbefore : ∀ line ∈ before, Text.trim (Prompt.normalize line) ≠ [] := by decide
  let bound := ((TableSession.start [1, 2, 3]).run Stmt.sizeAll limits "const a = clock();").2
  let rejected := (bound.run Stmt.sizeAll limits "\x7b var b; b; return; \x7d").2
  let stopped := rejected.run Stmt.sizeAll limits "a = nil;"
  have hleft : left =
      ⟨stopped.2, stopped.1.report.hadError, stopped.1.report.hadRuntimeError, true⟩ := by
    simp only [left, before, leftBy]
    rw [answer_eq_submit _ _ (by decide) (by decide)]
    dsimp only
    rw [answer_eq_submit _ _ (by decide) (by decide)]
    dsimp only
    rw [answer_eq_obey _ _ "/py-traceback" "on" (by decide) (by decide)]
    dsimp only
    rw [answer_eq_submit _ _ (by decide) (by decide)]
    rfl
  -- Replies are texts that are costly to evaluate, so the sessions are run without them.
  have hstopped : stopped.1 = .ran [] (.failed ⟨.assignmentToConstant, some 1⟩)
      ∧ stopped.2.tables = ⟨[(1, 0)], []⟩ ∧ stopped.2.machine.clock = [2, 3] := by
    simp only [stopped, rejected, bound, limits]
    cbv
    exact ⟨rfl, trivial⟩
  have hanew : ((start [2, 3] true).session.run Stmt.sizeAll limits "a = nil;").1 =
      .ran [] (.failed ⟨.undefinedVariable "a", some 1⟩) := by
    simp only [limits]
    cbv
  obtain ⟨said, hlength, hsaid⟩ := reset_forgets Stmt.sizeAll limits [1, 2, 3] false hbefore
  obtain ⟨houtcome, htables, hclock⟩ := hstopped
  have hmachine : left.session.machine.clock = [2, 3] := hleft ▸ hclock
  have htracing : left.tracing = true := by rw [hleft]
  have hmarks : left.marks = (false, true) := by
    rw [hleft, houtcome]
    rfl
  have hreplies := congrArg Prompt.Dialogue.replies (hsaid ["a = nil;"]).1
  change _ = said ++ .said "Environment reset." ::
    ((start left.session.machine.clock left.tracing).converse _ limits ["a = nil;"]).replies
    at hreplies
  rw [hmachine, htracing] at hreplies
  refine ⟨hbefore, hmarks, htracing, hleft ▸ htables, hmachine, said, hlength, hreplies.trans ?_⟩
  rw [converse, answer_eq_submit _ _ (by decide) (by decide)]
  have hreply : ((start [2, 3] true).submit Stmt.sizeAll limits "a = nil;").1 =
      (Outcome.ran [] (.failed ⟨.undefinedVariable "a", some 1⟩)).reply true :=
    congrArg (Outcome.reply true) hanew
  exact congrArg (fun reply => said ++ [.said "Environment reset.", reply, Prompt.farewell]) hreply

end TablePrompt
end Lox
