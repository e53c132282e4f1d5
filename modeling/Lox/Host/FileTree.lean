import Lox.Text.Lines
import Lox.Text.Quoted

/-!
# Files

A tree of directories and files, and how a path is followed in it.  A path is a row of names;
empty names and `.` stay where they are, and `..` leads back to the directory above, which for the
top of the system is the top itself.  A path that begins with a slash starts at the top, and any
other path in the directory at hand.  A file is read as text in UTF-8 with uniform line ends.
-/

namespace Lox

/-- Why a path leads to no file. -/
inductive PathFault
  | notFound
  | isDirectory
  | notDirectory
  | nameTooLong
  /-- Any other reason, with the number and in the words of the system. -/
  | refused (number : Nat) (reason : String)
  deriving DecidableEq, Repr

def PathFault.message : PathFault → String
  | .notFound => "No such file or directory"
  | .isDirectory => "Is a directory"
  | .notDirectory => "Not a directory"
  | .nameTooLong => "File name too long"
  | .refused _ reason => reason

/-- The number that the system gives to a fault. -/
def PathFault.number : PathFault → Nat
  | .notFound => 2
  | .notDirectory => 20
  | .isDirectory => 21
  | .nameTooLong => 36
  | .refused number _ => number

/-- The full report of a fault on a path. -/
def PathFault.report (fault : PathFault) (path : String) : String :=
  "[Errno " ++ toString fault.number ++ "] " ++ fault.message ++ ": " ++ Text.quoted path

/-- What reading a file gives. -/
inductive FileReading
  | text (content : String)
  | unreadable (fault : PathFault)
  /-- The bytes are not text. -/
  | undecodable
  /-- The path holds the character zero, which no path can. -/
  | malformedPath
  deriving DecidableEq, Repr

/-- The report of a path that holds the character zero. -/
def malformedPathReport : String := "embedded null byte"

inductive FileTree
  | file (bytes : ByteArray)
  | directory (entries : List (String × FileTree))

namespace FileTree

/-- The names of a path. -/
def pathNames (path : String) : List String :=
  ((Text.split '/' path.toList).map String.ofList).filter fun name => name != "" && name != "."

/-- The slashes with which a path begins: two stay, and more of them are as good as one. -/
def leadingSlashes (path : String) : String :=
  match (path.toList.takeWhile (· == '/')).length with
  | 0 => ""
  | 2 => "//"
  | _ => "/"

/-- A path without the names that stay where they are. -/
def normalizePath (path : String) : String :=
  let names := leadingSlashes path ++ "/".intercalate (pathNames path)
  if names == "" then "." else names

/-- The most bytes of a name. -/
def longestName : Nat := 255

/-- The most bytes of a path. -/
def longestPath : Nat := 4095

/-- An entry of a directory. -/
def child? (name : String) : List (String × FileTree) → Option FileTree :=
  List.lookup name

/-- Follows names from a tree, given the directories above it, nearest first. -/
def follow : List String → List FileTree → FileTree → Except PathFault FileTree
  | [], _, here => .ok here
  | _ :: _, _, .file _ => .error .notDirectory
  | ".." :: rest, above, here@(.directory _) =>
      match above with
      | [] => follow rest [] here
      | parent :: others => follow rest others parent
  | name :: rest, above, .directory entries =>
      match child? name entries with
      | some child => follow rest (.directory entries :: above) child
      | none => .error (if name.utf8ByteSize ≤ longestName then .notFound else .nameTooLong)

/-- Puts a tree in the place of an entry, or at the end. -/
def putEntry (name : String) (tree : FileTree) :
    List (String × FileTree) → List (String × FileTree)
  | [] => [(name, tree)]
  | entry :: rest =>
      if entry.1 == name then (name, tree) :: rest else entry :: putEntry name tree rest

/-- Puts a tree at the end of a row of names; directories on the way are made. -/
def insert (tree : FileTree) : List String → FileTree → FileTree
  | [], _ => tree
  | name :: rest, .directory entries =>
      let child := (child? name entries).getD (.directory [])
      .directory (putEntry name (insert tree rest child) entries)
  | _ :: _, .file bytes => .file bytes

/-- The text that bytes stand for. -/
def decode (bytes : ByteArray) : FileReading :=
  match String.fromUTF8? bytes with
  | some content => .text (String.ofList (Text.unifyLineEnds content.toList))
  | none => .undecodable

/--
What a path leads to, given the directory at hand and the directories above it, nearest first.  The
last of these is the top of the system.
-/
def find (above : List FileTree) (here : FileTree) (path : String) : Except PathFault FileTree :=
  if longestPath < (normalizePath path).utf8ByteSize then
    .error .nameTooLong
  else if leadingSlashes path == "" then
    follow (pathNames path) above here
  else
    follow (pathNames path) [] (above.getLast?.getD here)

/-- Reads the file that a path leads to, given the directory at hand and those above it. -/
def read (above : List FileTree) (here : FileTree) (path : String) : FileReading :=
  if path.toList.contains '\x00' then
    .malformedPath
  else
    match find above here path with
    | .ok (.file bytes) => decode bytes
    | .ok (.directory _) => .unreadable .isDirectory
    | .error fault => .unreadable fault

end FileTree
end Lox
