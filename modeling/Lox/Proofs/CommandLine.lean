import Lox.CommandLine
import Lox.Proofs.Session.Failures

/-!
# Files on the command line

A file that holds text ends the program with the code for what becomes of that text, and a path
that leads to no file ends it with a code of its own.  Two readings are left over: bytes that are
no text, and a path that holds the character zero.  Neither of them ends in a code.

**Main definition.**
* `CommandLine.EndsWithCode`: the results of running the text of a file.

**Results.**
* `Session.start_run_ne_strayed`: no link of an accepted text leads too far.
* `CommandLine.run_file_ends`: one file on the command line.
-/

namespace Lox
namespace FileTree

/-- Reading finds something that no code is for. -/
def EscapesReading (above : List FileTree) (here : FileTree) (path : String) : Prop :=
  '\x00' ∈ path.toList
    ∨ ∃ bytes, find above here path = .ok (.file bytes) ∧ String.fromUTF8? bytes = none

/-- What reading a file gives is text, a fault on the path, or something that no code is for. -/
theorem read_cases
    (above : List FileTree)
    (here : FileTree)
    (path : String) :
    (∃ source, read above here path = .text source ∧ ¬EscapesReading above here path)
      ∨ (∃ fault, read above here path = .unreadable fault ∧ ¬EscapesReading above here path)
      ∨ ((read above here path = .undecodable ∨ read above here path = .malformedPath)
        ∧ EscapesReading above here path) := by
  unfold read EscapesReading
  by_cases hzero : '\x00' ∈ path.toList
  · exact .inr (.inr ⟨.inr (by simp [hzero]), .inl hzero⟩)
  · simp only [List.contains_iff_mem, hzero, if_false, false_or]
    match find above here path with
    | .error fault => exact .inr (.inl ⟨fault, rfl, by simp⟩)
    | .ok (.directory _) => exact .inr (.inl ⟨.isDirectory, rfl, by simp⟩)
    | .ok (.file bytes) =>
        cases hdecode : String.fromUTF8? bytes with
        | some content => exact .inl ⟨_, by simp only [decode, hdecode]; rfl, by simp [hdecode]⟩
        | none => exact .inr (.inr ⟨.inl (by simp only [decode, hdecode]), bytes, rfl, hdecode⟩)

end FileTree

namespace Session

/-- In a session of its own, no link of an accepted text leads farther than there are frames. -/
theorem start_run_ne_strayed
    {limits : Limits}
    {source : String}
    {clock : List Float}
    {printed : List String}
    {distance : Nat} :
    ((start clock).run limits source).1 ≠ .ran printed (.strayed distance) := by
  intro hrun
  rw [run] at hrun
  cases hcompile : compile limits source with
  | error diagnostics =>
      rw [hcompile] at hrun
      cases hrun
  | ok program =>
      rw [hcompile] at hrun
      have hending := (Outcome.ran.inj hrun).2
      rw [Machine.runProgram_eq] at hending
      cases hrecord : (Machine.recordProgram limits program
          { (start clock).machine with printed := #[] }).2 with
      | ok _ m =>
          rw [hrecord] at hending
          cases hending
      | error interrupt m =>
          rw [hrecord] at hending
          -- Among the interruptions that are expected, none is a chain of frames that is too short.
          cases @expected_run clock [] limits source program hcompile interrupt m hrecord with
          | superclass _ => cases hending
          | ordinary hordinary => cases hordinary <;> cases hending

end Session

namespace CommandLine

/--
The results with which a text can end, when it is run in a session of its own.  A text that does not
terminate has no result to speak of.
-/
inductive EndsWithCode
    (limits : Limits)
    (clock : List Float)
    (source : String) :
    CommandResult → Prop
  | rejected {diagnostics : List Diagnostic} :
      compile limits source = .error diagnostics →
      diagnostics ≠ [] →
      EndsWithCode limits clock source
        ⟨⟨"", Reply.lines (diagnostics.map Diagnostic.text)⟩, .code .dataError⟩
  | failed {printed : List String} {e : RuntimeError} :
      ((Session.start clock).run limits source).1 = .ran printed (.failed e) →
      EndsWithCode limits clock source
        ⟨⟨Reply.lines printed, Reply.lines e.report⟩, .code .softwareError⟩
  | finished {printed : List String} :
      ((Session.start clock).run limits source).1 = .ran printed .finished →
      EndsWithCode limits clock source ⟨⟨Reply.lines printed, ""⟩, .code .success⟩
  | unfinished {printed : List String} (result : CommandResult) :
      ((Session.start clock).run limits source).1 = .ran printed .unfinished →
      EndsWithCode limits clock source result

theorem endsWithCode_runText
    (limits : Limits)
    (clock : List Float)
    (source : String) :
    EndsWithCode limits clock source (runText limits false clock source) := by
  have hresult : runText limits false clock source =
      ⟨((Session.start clock).run limits source).1.reply false,
        .code (exitCode ((Session.start clock).run limits source).1)⟩ := rfl
  cases hrun : ((Session.start clock).run limits source).1 with
  | rejected diagnostics =>
      rw [hresult, hrun]
      cases hcompile : compile limits source with
      | ok program =>
          rw [Session.run, hcompile] at hrun
          cases hrun
      | error found =>
          rw [Session.run, hcompile] at hrun
          cases hrun
          exact .rejected hcompile (ne_nil_of_compile_eq_error hcompile)
  | ran printed ending =>
      cases ending with
      | finished =>
          rw [hresult, hrun]
          exact .finished hrun
      | failed e =>
          rw [hresult, hrun, Outcome.reply, Ending.report, if_neg Bool.false_ne_true,
            List.append_nil]
          exact .failed hrun
      | strayed distance => exact absurd hrun Session.start_run_ne_strayed
      | unfinished => exact .unfinished _ hrun

/--
One file on the command line, without traces.  The program ends with a code unless the path holds
the character zero or leads to bytes that are no text.  A path that leads to no file is reported
with its fault, and a text with what becomes of it.
-/
theorem run_file_ends
    (limits : Limits)
    (clock : List Float)
    (above : List FileTree)
    (here : FileTree)
    (path : String)
    (input : String) :
    let reading := FileTree.read above here path
    let result := run limits false clock [path] (FileTree.read above here) input
    ((∃ c, result.exit = .code c) ↔ ¬FileTree.EscapesReading above here path)
      ∧ (FileTree.EscapesReading above here path →
        result.reply = .nothing ∧ (result.exit = .undecodable ∨ result.exit = .malformedPath))
      ∧ (∀ fault, reading = .unreadable fault →
        result =
          ⟨⟨"", "Could not read '" ++ path ++ "': " ++ fault.message ++ "\n"⟩, .code .noInput⟩)
      ∧ ∀ source, reading = .text source → EndsWithCode limits clock source result := by
  dsimp only
  have hresult : run limits false clock [path] (FileTree.read above here) input =
      runFile limits false clock path (FileTree.read above here path) := rfl
  rw [hresult]
  rcases FileTree.read_cases above here path with
    ⟨source, hread, hescapes⟩ | ⟨fault, hread, hescapes⟩ | ⟨hread, hescapes⟩
  · rw [hread]
    refine ⟨iff_of_true ⟨_, rfl⟩ hescapes, fun h => absurd h hescapes, nofun, ?_⟩
    rintro _ ⟨⟩
    exact endsWithCode_runText limits clock source
  · rw [hread]
    refine ⟨iff_of_true ⟨_, rfl⟩ hescapes, fun h => absurd h hescapes, ?_, nofun⟩
    rintro _ ⟨⟩
    simp only [runFile, unreadable, Reply.complained, Reply.lines, String.append_empty]
  · rcases hread with hread | hread <;> rw [hread]
    · exact ⟨iff_of_false nofun (not_not_intro hescapes), fun _ => ⟨rfl, .inl rfl⟩, nofun, nofun⟩
    · exact ⟨iff_of_false nofun (not_not_intro hescapes), fun _ => ⟨rfl, .inr rfl⟩, nofun, nofun⟩

/-- A file with the single byte 255 ends the program without a code. -/
theorem run_file_ends_without_code :
    let here := FileTree.directory [("a", .file ⟨#[255]⟩)]
    ¬∃ c, (run ⟨20, 20, 20, 20⟩ false [] ["a"] (FileTree.read [] here) "").exit = .code c := by
  have hfind : FileTree.find [] (.directory [("a", .file ⟨#[255]⟩)]) "a" =
      .ok (.file ⟨#[255]⟩) := rfl
  have hdecode : String.fromUTF8? ⟨#[255]⟩ = none := rfl
  have hends := (run_file_ends ⟨20, 20, 20, 20⟩ [] [] (.directory [("a", .file ⟨#[255]⟩)])
    "a" "").1
  exact fun h => hends.mp h (.inr ⟨_, hfind, hdecode⟩)

end CommandLine
end Lox
