import StackCalc.Files
import StackCalc.Settings

/-!
Settings from a document. The format of documents is the concern of its reader, which is given: it
finds settings in a text, or it refuses the text in words of its own.
-/
namespace StackCalc

/-- How settings are read from the text of a document, or why they cannot be. -/
abbrev DocumentReader := String → Except String Settings

/-- Why there are no settings. -/
inductive SettingsFault where
  /-- The reader of the format refuses the document. -/
  | malformed {reason : String}
  /-- No word could ever be called. -/
  | zeroDepth
  | unreadable (fault : IoFault)
  deriving DecidableEq, Repr

def SettingsFault.message : SettingsFault → String
  | @malformed reason => s!"Failed to parse config: {reason}"
  | zeroDepth => "Invalid config: max_depth must be at least 1"
  | unreadable fault => s!"Failed to read config: {fault.message}"

namespace DocumentReader

/-- The settings of a document, which must allow calls. -/
def settings (parse : DocumentReader) (document : String) : Except SettingsFault Settings :=
  match parse document with
  | .error reason => .error (@SettingsFault.malformed reason)
  | .ok settings => if settings.maxDepth = 0 then .error .zeroDepth else .ok settings

/-- The settings of a document in a file. -/
def settingsIn (parse : DocumentReader) (read : FileReader) (path : String) :
    Except SettingsFault Settings :=
  match read.readText path with
  | .ok document => parse.settings document
  | .error fault => .error (.unreadable fault)

end DocumentReader

end StackCalc
