import StackCalc.CommandLine

/-!
The program. It reads its input and the files that it may need, makes one run of them, and writes
what the run leaves.
-/
namespace StackCalc

/-- The reason for which the system did not hand out a file. -/
def IoFault.ofSystem : IO.Error → IoFault
  | .noFileOrDirectory .. => .noSuchFile
  | .inappropriateType _ code _ => if code = 21 then .isDirectory else .notDirectory
  | .permissionDenied .. => .custom "Permission denied (os error 13)"
  | error => .custom (toString error)

/-- The content of a file, or the reason why there is none. -/
def readSystemFile (path : String) : IO (Except IoFault (List UInt8)) := do
  try
    return .ok (← IO.FS.readBinFile path).data.toList
  catch error => return .error (.ofSystem error)

end StackCalc

open StackCalc in
/-- Runs the program on the arguments and the input that the system gives it. -/
def main (arguments : List String) : IO UInt32 := do
  let input := (← (← IO.getStdin).readBinToEnd).data.toList
  let mut files := []
  for path in CommandLine.wantedPaths input arguments do
    files := (path, ← readSystemFile path) :: files
  let read : FileReader := fun path => (files.lookup path).getD (.error .noSuchFile)
  let report := CommandLine.run read input arguments
  (← IO.getStdout).write ⟨report.output.written⟩
  for message in report.errors do
    IO.eprintln message
  return report.exitCode.toUInt32
