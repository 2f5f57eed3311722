import StackCalc.Fault
import StackCalc.Text.Split

/-!
Files as a program sees them: bytes behind a path, or a reason why there are none.
-/
namespace StackCalc

/-- How the bytes behind a path are found. -/
abbrev FileReader := String → Except IoFault (List UInt8)

/-- A file as text, which it must be in UTF-8. -/
def FileReader.readText (read : FileReader) (path : String) : Except IoFault String := do
  let content ← read path
  match String.fromUTF8? ⟨content.toArray⟩ with
  | some text => return text
  | none => throw .invalidUtf8

/-- A directory with the files below it, each named by its relative path. -/
structure Directory where
  files : List (String × List UInt8) := []

namespace Directory

open Text

/-- The steps that a path asks for; several slashes count as one. -/
def steps (path : String) : List String :=
  ((split '/' path.toList).map String.ofList).filter (· ≠ "")

/-- Where a walk along a path has come to. -/
inductive Place where
  /-- Above the directory, or at the root that absolute paths start from. -/
  | outside
  /-- The directory behind the given steps. -/
  | directory (path : List String)
  | file (content : List UInt8)

/-- The file or the directory behind the given steps. -/
def find? (d : Directory) (path : List String) : Option Place :=
  match d.files.find? fun file => steps file.1 = path with
  | some (_, content) => some (.file content)
  | none =>
    if d.files.any fun file => path.isPrefixOf (steps file.1) then some (.directory path) else none

/-- The longest name and the longest path, in bytes. -/
def maxNameBytes : Nat := 255
def maxPathBytes : Nat := 4095

/-- One step of a walk. -/
def step (d : Directory) : Place → String → Except IoFault Place
  | .file _, _ => .error .notDirectory
  | place, "." => .ok place
  | .outside, ".." => .ok .outside
  | .directory path, ".." => .ok (if path.isEmpty then .outside else .directory path.dropLast)
  | place, name =>
    if maxNameBytes < name.utf8ByteSize then .error .nameTooLong
    else
      match place with
      | .directory path =>
        match d.find? (path ++ [name]) with
        | some next => .ok next
        | none => .error .noSuchFile
      | _ => .error .noSuchFile

/-- The place behind a path. A slash at its end asks for a directory. -/
def walk (d : Directory) (path : String) : Except IoFault Place := do
  let start : Place := if path.startsWith "/" then .outside else .directory []
  match ← (steps path).foldlM d.step start with
  | .file content => if path.endsWith "/" then throw .notDirectory else return .file content
  | place => return place

/-- The bytes of the file behind a path. -/
def read (d : Directory) : FileReader := fun path => do
  if path.contains '\x00' then throw .nulInName
  if path.isEmpty then throw .noSuchFile
  if maxPathBytes < path.utf8ByteSize then throw .nameTooLong
  match ← d.walk path with
  | .file content => return content
  | _ => throw .isDirectory

end Directory

end StackCalc
